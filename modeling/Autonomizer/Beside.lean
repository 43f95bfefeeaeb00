import Mathlib
import Autonomizer.Declared
import Autonomizer.Leftovers

/-! What the calls of a child do to a model of both runs. -/
namespace Autonomizer.Beside
open Declared (Section)
open Data FileIO FileSystem Footprint Format Leftovers PIInc PIModelManager Process ProgIntel
open PyInterface SingleModel StoreInfo TwoStates

section
variable {r : Supervised} {left : FS} {m : Text} {stg : NNStg} {ctx : PIContext}

structure Ground (left alone again : FS) : Prop where
  main : alone [piDir] = some .dir
  rooted : Rooted [piDir] alone
  grows : Grows left again

theorem groundAlone {alone again : FS} (ground : Ground left alone again) (op : Op) :
    Ground left (handle op alone).2 again :=
  ⟨(handleGrows op alone).dir _ ground.main,handleRooted ground.rooted op,ground.grows⟩

theorem groundAgain {alone again : FS} (ground : Ground left alone again) (op : Op) :
    Ground left alone (handle op again).2 :=
  ⟨ground.main,ground.rooted,growsTrans ground.grows (handleGrows op again)⟩

/- A network of the model has made the data file of the child in both runs. -/
def DoneAt (m : Text) (place : Text × Nat) (sub : Path) (alone again : FS) : Prop :=
  again (under m (sub ++ [place.1])) = some .dir ∧
    (fileText (alone (under m (sub ++ [place.1,decimal place.2])))).isSome

theorem textPresent {node : Option Node} (there : (fileText node).isSome) : node.isSome := by
  cases node with
  | none => cases there
  | some node => rfl

theorem fileStays {fs next : FS} (grows : Grows fs next) {path : Path}
    (there : (fileText (fs path)).isSome) : (fileText (next path)).isSome := by
  cases found : fs path with
  | none => rw [found] at there; cases there
  | some node =>
    cases node with
    | dir => rw [found] at there; cases there
    | file text =>
      obtain ⟨new,after⟩ := grows.file path text found
      rw [after]
      rfl

theorem doneStays {place : Text × Nat} {sub : Path} {alone again next after : FS}
    (done : DoneAt m place sub alone again) (first : Grows alone next) (second : Grows again after) :
    DoneAt m place sub next after :=
  ⟨second.dir _ done.1,fileStays first done.2⟩

def Old (r : Supervised) (left : FS) (m : Text) (alone again : FS) : Prop :=
  Core r left m alone again ∧ Ground left alone again

theorem groundFollows {α ε : Type} {R : FS → FS → Prop} {p : Prog Op Reply ε α}
    {Q : α → FS → FS → Prop} (follows : Follows handle R p Q)
    (ground : ∀ s t, R s t → Ground left s t) :
    Follows handle R p (fun a s t => Q a s t ∧ Ground left s t) :=
  followsKeeping follows ground (fun op _ _ here => groundAlone here op)
    (fun op _ _ here => groundAgain here op)

theorem subDir (base : Base r left m) {k : Nat} {loads : List Text}
    (uses : r.Uses k m stg loads) {sub : Path} (inside : sub ∈ subs stg loads) :
    left (under m sub) = some .dir := by
  cases stg with
  | one =>
    cases List.mem_singleton.mp inside
    exact base.root
  | ens =>
    obtain ⟨l,listed,rfl⟩ := List.mem_map.mp inside
    exact base.loadDirs k loads uses l listed

def LoadSection (ctx : PIContext) (l text : Text) : Prop :=
  ∃ pDC values, ctx.loadMap l = some pDC ∧ pDC.data ≠ 0 ∧ loadValues pDC ctx.memory = .ok values ∧
    text = loadText l pDC.nmemb values

theorem liftRan {α : Type} {x : Except Stop α} {s t : FS} {a : α}
    (ran : (lift x).exec handle s = (.ok a,t)) : x = .ok a ∧ s = t := by
  cases x with
  | ok b => cases ran; exact ⟨rfl,rfl⟩
  | error e => cases ran

theorem requireRan {cond : Bool} {what : String} {s t : FS} {u : Unit}
    (ran : (require cond what).exec handle s = (.ok u,t)) : cond = true ∧ s = t := by
  unfold require at ran
  split at ran
  · next holds => cases ran; exact ⟨holds,rfl⟩
  · cases ran

theorem loadDataRan {l : Text} {path : Path} {s t : FS}
    (ran : (writeLoadData (ctx.loadMap l) ctx.memory l path).exec handle s = (.ok (),t)) :
    ∃ text, LoadSection ctx l text ∧ t = Function.update s path (some (.file text)) := by
  unfold writeLoadData at ran
  rw [execPerform] at ran
  cases reply : (handle (.create path) s).1 with
  | ok =>
    rw [reply,createOk reply] at ran
    cases known : ctx.loadMap l with
    | none => rw [known] at ran; cases ran
    | some pDC =>
      rw [known] at ran
      obtain ⟨_,_,checked,rest⟩ := execBind ran
      obtain ⟨data,rfl⟩ := requireRan checked
      obtain ⟨values,_,lifted,rest⟩ := execBind rest
      obtain ⟨held,rfl⟩ := liftRan lifted
      rw [execPerform,writeNew] at rest
      cases rest
      exact ⟨_,⟨pDC,values,known,by simpa using data,held,rfl⟩,rfl⟩
  | _ => rw [reply] at ran; cases ran

theorem loadDataReady {l text : Text} (holds : LoadSection ctx l text) {path : Path} {s : FS}
    (noDir : s path ≠ some .dir) (parent : s path.dropLast = some .dir) :
    (writeLoadData (ctx.loadMap l) ctx.memory l path).exec handle s =
      (.ok (),Function.update s path (some (.file text))) := by
  obtain ⟨pDC,values,known,data,held,rfl⟩ := holds
  unfold writeLoadData
  rw [execPerform,createReady noDir parent]
  simp only [known,require,ne_eq,data,not_false_eq_true,decide_true,if_true,Prog.pureBind,held,lift]
  rw [execPerform,writeNew]
  rfl

theorem mkdirSharedRan {message : String} {path : Path} {s t : FS}
    (ran : (mkdirShared message path).exec handle s = (.ok (),t)) :
    t = (handle (.mkdir path) s).2 := by
  rw [mkdirShared,execPerform] at ran
  cases reply : (handle (.mkdir path) s).1 <;> rw [reply] at ran <;> cases ran <;> rfl

theorem mkdirSharedReady {message : String} {path : Path} {s : FS}
    (parent : s path.dropLast = some .dir) :
    (mkdirShared message path).exec handle s = (.ok (),(handle (.mkdir path) s).2) := by
  rw [mkdirShared,execPerform]
  rcases (mkdirReady parent).1 with reply | reply <;> rw [reply] <;> rfl

theorem loadFileRan {dir : Path} {l : Text} {dataIdx : Nat} {s t : FS}
    (ran : (writeLoadFile ctx dir l dataIdx).exec handle s = (.ok (),t)) :
    ∃ text mid, LoadSection ctx l text ∧ (mid = s ∨ mid = (handle (.mkdir dir) s).2) ∧
      t = Function.update mid (dir ++ [decimal dataIdx]) (some (.file text)) := by
  rw [writeLoadFile,execPerform,testSame rfl] at ran
  by_cases reply : (handle (.opensDir dir) s).1 = .ok
  · rw [reply] at ran
    obtain ⟨text,holds,written⟩ := loadDataRan ran
    exact ⟨text,s,holds,.inl rfl,written⟩
  · have made : (mkdirShared "Error<FileIO::prodWriteDataToFile>: Cannot create directory" dir >>=
        fun _ => writeLoadData (ctx.loadMap l) ctx.memory l (dir ++ [decimal dataIdx])).exec handle s =
        (.ok (),t) := by
      cases found : (handle (.opensDir dir) s).1 <;> rw [found] at ran reply <;>
        first | exact absurd rfl reply | exact ran
    obtain ⟨_,mid,first,rest⟩ := execBind made
    obtain ⟨text,holds,written⟩ := loadDataRan rest
    exact ⟨text,mid,holds,.inr (mkdirSharedRan first),written⟩

theorem loadFileReady {dir : Path} {l text : Text} {dataIdx : Nat} {s : FS}
    (holds : LoadSection ctx l text) (parent : s dir.dropLast = some .dir)
    (noFile : ∀ text, s dir ≠ some (.file text)) (noDir : s (dir ++ [decimal dataIdx]) ≠ some .dir) :
    ∃ mid, (mid = s ∨ mid = (handle (.mkdir dir) s).2) ∧ mid dir = some .dir ∧
      (writeLoadFile ctx dir l dataIdx).exec handle s =
        (.ok (),Function.update mid (dir ++ [decimal dataIdx]) (some (.file text))) := by
  have tested : (handle (.opensDir dir) s).2 = s := testSame rfl s
  rw [writeLoadFile,execPerform,tested]
  cases found : s dir with
  | some node =>
    cases node with
    | dir =>
      have reply : (handle (.opensDir dir) s).1 = .ok := by simp [handle,found]
      rw [reply]
      exact ⟨s,.inl rfl,found,loadDataReady holds noDir (by rwa [List.dropLast_concat])⟩
    | file old => exact absurd found (noFile old)
  | none =>
    have reply : (handle (.opensDir dir) s).1 = .enoent := by simp [handle,found]
    have there := (mkdirReady parent).2 noFile
    have apart : (Op.mkdir dir).target ≠ some (dir ++ [decimal dataIdx]) := by
      intro same
      have lengths := congrArg List.length (Option.some.inj same)
      simp at lengths
    rw [reply]
    refine ⟨_,.inr rfl,there,?_⟩
    show (mkdirShared _ dir >>= _).exec handle s = _
    rw [execReturned (mkdirSharedReady parent)]
    exact loadDataReady holds (by rwa [handleFrame apart]) (by rwa [List.dropLast_concat])

theorem placeData {k : Nat} {loads : List Text} (uses : r.Uses k m stg loads) {sub : Path}
    (inside : sub ∈ subs stg loads) : DataDir r m (sub ++ [(placeOf r.n k).1]) :=
  ⟨k,stg,loads,uses,sub,inside,_,placeNamed r.n k,rfl⟩

theorem coreMade (base : Base r left m) {alone again : FS}
    (core : Core r left m alone again) {dir : Path} (data : DataDir r m dir) :
    Core r left m (handle (.mkdir (under m dir)) alone).2 again ∧
      Core r left m alone (handle (.mkdir (under m dir)) again).2 := by
  constructor
  · refine coreAlone core nofun (fun _ => nofun) (soloMkdir core.solo (fun l same => ?_) (fun same => ?_))
    · obtain ⟨sub,d,rfl,named,⟨rfl,_⟩ | ⟨other,rfl,_⟩⟩ := dataDirShape data
      · cases underInjective same
        rcases named with train | valid
        · exact .inl train
        · exact .inr (.inl valid)
      · cases underInjective same
    · exact absurd same (dataDirStore data .one)
  · refine coreAgain core nofun (fun _ => nofun) (fun rest same _ => ?_)
    rw [← underInjective (Op.mkdir.inj same)]
    exact ⟨fun written => belowNoDir base.toReusable (writtenBelow written) data,dataDirStore data⟩

theorem loadFileFollows (ctx : PIContext) (base : Base r left m) {k : Nat}
    {loads : List Text} (uses : r.Uses k m stg loads) {sub : Path} (inside : sub ∈ subs stg loads) (l : Text) :
    Follows handle (Old r left m)
      (writeLoadFile ctx (under m (sub ++ [(placeOf r.n k).1])) l (placeOf r.n k).2)
      (fun _ s t => Core r left m s t ∧ DoneAt m (placeOf r.n k) sub s t) := by
  intro s t u s' related ran
  obtain ⟨core,ground⟩ := related
  obtain ⟨text,mid,holds,first,rfl⟩ := loadFileRan ran
  have data := placeData uses inside
  have written : Written r m (sub ++ [(placeOf r.n k).1,decimal (placeOf r.n k).2]) :=
    ⟨k,stg,loads,uses,sub,inside,rfl⟩
  have path : under m (sub ++ [(placeOf r.n k).1]) ++ [decimal (placeOf r.n k).2] =
      under m (sub ++ [(placeOf r.n k).1,decimal (placeOf r.n k).2]) := by
    simp [under]
  have parent : t (under m (sub ++ [(placeOf r.n k).1])).dropLast = some .dir := by
    have up : (under m (sub ++ [(placeOf r.n k).1])).dropLast = under m sub := by
      rw [under,← List.cons_append,← List.cons_append,List.dropLast_concat]
      rfl
    rw [up]
    exact ground.grows.dir _ (subDir base uses inside)
  rw [path]
  obtain ⟨mid',second,there,also⟩ := loadFileReady holds parent (core.noFile _ data)
    (by rw [path]; exact core.noDir _ written)
  rw [path] at also
  have early : Core r left m mid t := by
    rcases first with rfl | rfl
    · exact core
    · exact (coreMade base core data).1
  have late : Core r left m mid mid' := by
    rcases second with rfl | rfl
    · exact early
    · exact (coreMade base early data).2
  refine ⟨_,also,coreData base.toReusable late (writtenBelow written) text,?_,?_⟩
  · rw [Function.update_of_ne (fun same => ?_)]
    · exact there
    · exact belowNoDir base.toReusable (writtenBelow written) (underInjective same ▸ data)
  · rw [Function.update_self]
    rfl

theorem requireFollows {α : Type} {R : FS → FS → Prop} {Q : α → FS → FS → Prop} {cond : Bool}
    {what : String} {p : Steps α} (rest : cond = true → Follows handle R p Q) :
    Follows handle R (require cond what >>= fun _ => p) Q := by
  unfold require
  split
  · next holds => exact rest holds
  · exact followsStop _

theorem liftFollows {α β : Type} {R : FS → FS → Prop} {Q : β → FS → FS → Prop} {x : Except Stop α}
    {f : α → Steps β} (rest : ∀ a, x = .ok a → Follows handle R (f a) Q) :
    Follows handle R (lift x >>= f) Q := by
  cases x with
  | ok a => exact rest a rfl
  | error e => exact followsStop _

theorem loadFilesFollows (ctx : PIContext) (base : Base r left m) {k : Nat}
    {loads : List Text} (uses : r.Uses k m .ens loads) (names : List Text) (listed : ∀ l ∈ names, l ∈ loads) :
    Follows handle (Old r left m)
      (writeLoadFiles ctx m (placeOf r.n k).1 (placeOf r.n k).2 names)
      (fun _ s t => Old r left m s t ∧ ∀ l ∈ names, DoneAt m (placeOf r.n k) [l] s t) := by
  induction names with
  | nil => exact followsPure fun _ _ related => ⟨related,nofun⟩
  | cons l rest ih =>
    have inside : [l] ∈ subs .ens loads := List.mem_map.mpr ⟨l,listed l List.mem_cons_self,rfl⟩
    have here := groundFollows (loadFileFollows ctx base uses inside l)
      (fun _ _ related => related.2)
    refine followsBind here (fun _ => ?_)
    have later : Follows handle
        (fun s t => (Core r left m s t ∧ DoneAt m (placeOf r.n k) [l] s t) ∧ Ground left s t)
        (writeLoadFiles ctx m (placeOf r.n k).1 (placeOf r.n k).2 rest)
        (fun _ s t => Old r left m s t ∧ ∀ l ∈ rest, DoneAt m (placeOf r.n k) [l] s t) :=
      followsWeaken (ih fun name named => listed name (List.mem_cons_of_mem l named))
        (fun _ _ related => ⟨related.1.1,related.2⟩) (fun _ _ _ after => after)
    refine followsWeaken (followsKeeping later (fun _ _ related => related.1.2)
      (fun op _ _ done => doneStays done (handleGrows op _) (growsRefl _))
      (fun op _ _ done => doneStays done (growsRefl _) (handleGrows op _)))
      (fun _ _ related => related) ?_
    rintro _ s t ⟨⟨old,done⟩,first⟩
    refine ⟨old,fun name named => ?_⟩
    rcases List.mem_cons.mp named with rfl | later
    · exact first
    · exact done name later

theorem writeLoadsFollows (ctx : PIContext) (base : Base r left m) {k : Nat}
    {loads : List Text} (uses : r.Uses k m stg loads) : Follows handle (Old r left m)
      (writeLoads ctx m stg loads (placeOf r.n k).1 (placeOf r.n k).2)
      (fun _ s t => Old r left m s t ∧
        ∀ sub ∈ subs stg loads, DoneAt m (placeOf r.n k) sub s t) := by
  cases stg with
  | one =>
    refine requireFollows (fun _ => ?_)
    have here := groundFollows (loadFileFollows ctx base uses
      (List.mem_singleton_self _) (loads.headD [])) (fun _ _ related => related.2)
    refine followsWeaken here (fun _ _ related => related) ?_
    rintro _ s t ⟨⟨core,done⟩,ground⟩
    refine ⟨⟨core,ground⟩,fun sub inside => ?_⟩
    cases List.mem_singleton.mp inside
    exact done
  | ens =>
    refine requireFollows (fun _ => ?_)
    refine followsWeaken (loadFilesFollows ctx base uses loads fun _ listed => listed)
      (fun _ _ related => related) ?_
    rintro _ s t ⟨old,done⟩
    refine ⟨old,fun sub inside => ?_⟩
    obtain ⟨l,listed,rfl⟩ := List.mem_map.mp inside
    exact done l listed

/- The store file of a model that is only used as a single one is there once its directory is. -/
def Made (r : Supervised) (m : Text) (stg : NNStg) (alone : FS) : Prop :=
  stg = .one → (∀ k loads, ¬ r.Uses k m .ens loads) → alone (storePath m .one) ≠ none

theorem coreTouch {alone again : FS} (core : Core r left m alone again)
    (empty : contents alone (storePath m stg) = [])
    (solo : Solo r left m (Function.update alone (storePath m stg) (some (.file [])))) :
    Core r left m (Function.update alone (storePath m stg) (some (.file []))) again where
  noFile := core.noFile
  noDir := core.noDir
  storeFile := core.storeFile
  data rest below := by
    rw [Function.update_of_ne (belowStore below stg)]
    exact core.data rest below
  store s := by
    by_cases mine : storePath m s = storePath m stg
    · rw [mine,contentsFile (Function.update_self ..),core.store,empty]
    · rw [contentsApart mine]
      exact core.store s
  present there := by
    by_cases mine : storePath m .one = storePath m stg
    · rw [mine,Function.update_self]
      exact .inr nofun
    · rw [Function.update_of_ne mine]
      exact core.present there
  solo := solo

theorem touchedOk {path : Path} {s t : FS} (ran : (touch path).exec handle s = (.ok (),t)) :
    t = Function.update s path (some (.file [])) := by
  rw [touch,execPerform] at ran
  cases reply : (handle (.create path) s).1 <;> rw [reply] at ran <;> cases ran
  exact createOk reply

theorem onlyCreateLoadDirs (ctx : PIContext) (m : Text) (loads : List Text) :
    Only (fun op => ∃ l ∈ loads, op = .mkdir (under m [l])) (createLoadDirs ctx m loads) := by
  induction loads with
  | nil => trivial
  | cons l rest ih =>
    refine onlyBind (onlyAssert _ _) (fun _ => onlyBind (onlyMkdirShared _ ?_) (fun _ => ?_))
    · exact ⟨l,List.mem_cons_self,rfl⟩
    · refine onlyMono ih ?_
      rintro op ⟨name,named,same⟩
      exact ⟨name,List.mem_cons_of_mem l named,same⟩

theorem coreDirs {again : FS} {rest : Path}
    (single : under m rest = storePath m .one → left (storePath m .one) ≠ none) {s : FS}
    (core : Core r left m s again ∧ ∀ stg, fileText (s (storePath m stg)) = none) :
    Core r left m (handle (.mkdir (under m rest)) s).2 again ∧
      ∀ stg, fileText ((handle (.mkdir (under m rest)) s).2 (storePath m stg)) = none := by
  constructor
  · refine coreAlone core.1 nofun (fun _ => nofun) (soloMkdir core.1.solo (fun _ _ => ?_) single)
    rw [core.2]
    exact .inr (.inr nofun)
  · intro stg
    rw [mkdirText]
    exact core.2 stg

theorem createDirRan {loads : List Text} {s t : FS}
    (ran : (createDir ctx m stg loads).exec handle s = (.ok (),t)) :
    (s (under m []) = some .dir ∧ t = s) ∨
      (s (under m []) ≠ some .dir ∧ ∃ mid, (stg = .one → mid = (handle (.mkdir (under m [])) s).2) ∧
        (stg = .ens → (createLoadDirs ctx m loads).exec handle (handle (.mkdir (under m [])) s).2 =
          (.ok (),mid)) ∧ t = Function.update mid (storePath m stg) (some (.file []))) := by
  by_cases there : s (under m []) = some .dir
  · have reply := opensDirIff.mpr there
    refine .inl ⟨there,?_⟩
    cases stg with
    | one =>
      rw [createDir,prodCreateModelDir,execPerform,testSame rfl] at ran
      replace reply : (handle (.opensDir [piDir,m]) s).1 = .ok := reply
      rw [reply] at ran
      cases ran
      rfl
    | ens =>
      rw [createDir,prodCreateModelDirs,execPerform,testSame rfl] at ran
      replace reply : (handle (.opensDir [piDir,m]) s).1 = .ok := reply
      rw [reply] at ran
      cases ran
      rfl
  · have reply : (handle (.opensDir [piDir,m]) s).1 ≠ .ok := fun ok => there (opensDirIff.mp ok)
    refine .inr ⟨there,?_⟩
    cases stg with
    | one =>
      rw [createDir,prodCreateModelDir,execPerform,testSame rfl] at ran
      have made : (mkdirShared cannotCreate [piDir,m] >>=
          fun _ => touch (storePath m .one)).exec handle s = (.ok (),t) := by
        cases found : (handle (.opensDir [piDir,m]) s).1 <;> rw [found] at ran reply <;>
          first | exact absurd rfl reply | exact ran
      obtain ⟨_,mid,first,rest⟩ := execBind made
      exact ⟨mid,fun _ => mkdirSharedRan first,(fun other => by cases other),touchedOk rest⟩
    | ens =>
      rw [createDir,prodCreateModelDirs,execPerform,testSame rfl] at ran
      have made : (mkdirShared cannotCreate [piDir,m] >>= fun _ => createLoadDirs ctx m loads >>=
          fun _ => touch (storePath m .ens)).exec handle s = (.ok (),t) := by
        cases found : (handle (.opensDir [piDir,m]) s).1 <;> rw [found] at ran reply <;>
          first | exact absurd rfl reply | exact ran
      obtain ⟨_,top,first,rest⟩ := execBind made
      obtain ⟨_,mid,dirs,last⟩ := execBind rest
      rw [mkdirSharedRan first] at dirs
      exact ⟨mid,(fun other => by cases other),fun _ => dirs,touchedOk last⟩

theorem createDirThere {loads : List Text} {s : FS} (there : s (under m []) = some .dir) :
    (createDir ctx m stg loads).exec handle s = (.ok (),s) := by
  have reply : (handle (.opensDir [piDir,m]) s).1 = .ok := opensDirIff.mpr there
  cases stg with
  | one =>
    rw [createDir,prodCreateModelDir,execPerform,testSame rfl,reply]
    rfl
  | ens =>
    rw [createDir,prodCreateModelDirs,execPerform,testSame rfl,reply]
    rfl

theorem createDirFollows (base : Base r left m) {k : Nat} {loads : List Text}
    (uses : r.Uses k m stg loads) : Follows handle
      (fun s t => Old r left m s t ∧ (s (under m []) = some .dir → Made r m stg s))
      (createDir ctx m stg loads) (fun _ s t => Core r left m s t ∧ Made r m stg s) := by
  rintro s t u s' ⟨⟨core,ground⟩,made⟩ ran
  refine ⟨t,createDirThere (ground.grows.dir _ base.root),?_⟩
  rcases createDirRan ran with ⟨there,rfl⟩ | ⟨absent,mid,one,ens,rfl⟩
  · exact ⟨core,made there⟩
  · have none_ (name : Text) : s (under m [name]) = none :=
      rootedNone ground.rooted ⟨[m],rfl⟩ absent (List.cons_ne_nil name [])
    have stores (other : NNStg) : fileText (s (storePath m other)) = none := by
      obtain ⟨name,same,_⟩ := storeUnder m other
      rw [same,none_ name]
      rfl
    have top : under m [] ≠ storePath m .one := by simp [under,storePath]
    have first := coreDirs (fun same => absurd same top) ⟨core,stores⟩
    have empty {fs : FS} (texts : ∀ other, fileText (fs (storePath m other)) = none) (other : NNStg) :
        contents fs (storePath m other) = [] := by
      rw [contents,texts]
      rfl
    cases stg with
    | one =>
      rw [one rfl]
      refine ⟨coreTouch first.1 (empty first.2 .one) ⟨fun _ => ⟨k,loads,uses⟩,?_,fun _ l dir => ?_,?_⟩,?_⟩
      · rw [Function.update_self]
        exact fun other => by cases other
      · by_cases mine : under m [l] = storePath m .one
        · rw [mine,Function.update_self] at dir
          cases dir
        · have apart : (Op.mkdir (under m [])).target ≠ some (under m [l]) := by simp [Op.target,under]
          rw [Function.update_of_ne mine,handleFrame apart,none_] at dir
          cases dir
      · rw [contentsApart (by simp [storePath,oneStore,ensStore])]
        exact fun _ => empty first.2 .ens
      · rintro - -
        rw [Function.update_self]
        exact fun other => by cases other
    | ens =>
      have begun : Core r left m mid t ∧ ∀ other, fileText (mid (storePath m other)) = none := by
        have kept := keepsOnly (onlyCreateLoadDirs ctx m loads)
          (I := fun s => Core r left m s t ∧ ∀ other, fileText (s (storePath m other)) = none)
          (by
            rintro op s ⟨l,listed,rfl⟩ core
            refine coreDirs (fun same none_ => ?_) core
            have dir := base.loadDirs k loads uses l listed
            rw [same,none_] at dir
            cases dir) _ first
        rw [ens rfl] at kept
        exact kept
      have other : storePath m .one ≠ storePath m .ens := by simp [storePath,oneStore,ensStore]
      have noFile : fileText (Function.update mid (storePath m .ens) (some (.file [])) (storePath m .one)) =
          none := by
        rw [Function.update_of_ne other]
        exact begun.2 .one
      refine ⟨coreTouch begun.1 (empty begun.2 .ens) ⟨fun some_ => absurd noFile some_,?_,?_,?_⟩,
        fun other => by cases other⟩
      · rw [Function.update_of_ne other]
        exact begun.1.solo.single
      · rw [noFile]
        exact fun other => by cases other
      · rw [noFile]
        exact fun other => by cases other

def Aside (r : Supervised) (m : Text) (rest : Path) : Prop :=
  ¬ Below r m rest ∧ ¬ DataDir r m rest ∧ ∀ s, under m rest ≠ storePath m s

theorem coreAside {alone again : FS} (core : Core r left m alone again) {op : Op} {rest : Path}
    (file : op.file = some (under m rest)) (aside : Aside r m rest) :
    Core r left m (handle op alone).2 again ∧ Core r left m alone (handle op again).2 := by
  obtain ⟨noData,noDir,noStore⟩ := aside
  have here {other : Path} (same : op.file = some (under m other)) : other = rest :=
    underInjective (Option.some.inj (same.symm.trans file))
  have stores (s : NNStg) : op.file ≠ some (storePath m s) := by
    rw [file]
    exact fun same => noStore s (Option.some.inj same)
  constructor
  · exact coreAlone core (fun other same => here same ▸ noData) stores (soloFile core.solo file noStore)
  · refine coreAgain core (fun other same => here same ▸ ⟨noData,noDir⟩) stores ?_
    rintro other rfl _
    cases file

theorem lastPy (name : Text) : (name ++ ".py".toList).getLast? = some 'y' := by simp

theorem noPy {d : Text} (named : d = piTrainDir ∨ d = piValidDir) (name : Text) :
    d ≠ name ++ ".py".toList := by
  intro same
  have ends := lastPy name
  rw [← same] at ends
  rcases named with rfl | rfl <;> exact absurd ends (by decide)

theorem templateAside (r : Supervised) (m : Text) : Aside r m [m ++ ".py".toList] := by
  refine ⟨fun below => ?_,fun data => ?_,fun s same => ?_⟩
  · exact absurd (belowLength below) (by simp)
  · obtain ⟨sub,dir,same,named,⟨rfl,_⟩ | ⟨l,rfl,_⟩⟩ := dataDirShape data
    · exact noPy named m (List.cons.inj same).1.symm
    · exact absurd (congrArg List.length same) (by simp)
  · obtain ⟨name,store,ends,_⟩ := storeUnder m s
    rw [store] at same
    have equal := (List.cons.inj (underInjective same)).1
    rw [← equal,lastPy] at ends
    exact absurd ends (by decide)

theorem loadTemplateAside {l : Text} (plain : ∀ j others, r.Uses j m .one others → l ∉ entries m) :
    Aside r m [l,l ++ ".py".toList] := by
  refine ⟨?_,fun data => ?_,fun s same => ?_⟩
  · rintro ⟨top,more,data,some_,same⟩
    obtain ⟨sub,dir,rfl,named,⟨rfl,j,others,single⟩ | ⟨other,rfl,_⟩⟩ := dataDirShape data
    · have equal : l = dir := (List.cons.inj same).1
      exact plain j others single (equal ▸ dataEntry named m)
    · have longer := List.length_pos_of_ne_nil some_
      have lengths := congrArg List.length same
      simp only [List.length_cons,List.length_nil,List.length_append] at lengths
      omega
  · obtain ⟨sub,dir,same,named,⟨rfl,_⟩ | ⟨other,rfl,_⟩⟩ := dataDirShape data
    · exact absurd (congrArg List.length same) (by simp)
    · exact noPy named l (List.cons.inj (List.cons.inj same).2).1.symm
  · obtain ⟨name,store,_⟩ := storeUnder m s
    rw [store] at same
    exact absurd (congrArg List.length (underInjective same)) (by simp)

theorem coreLoadDir (base : Base r left m) {alone again : FS}
    (core : Core r left m alone again) (grows : Grows left again) {k : Nat} {loads : List Text}
    (uses : r.Uses k m stg loads) {l : Text} (listed : l ∈ loads)
    (plain : stg = .one → l ∉ entries m) :
    Core r left m alone (handle (.mkdir (under m [l])) again).2 := by
  cases stg with
  | ens =>
    have dir := grows.dir _ (base.loadDirs k loads uses l listed)
    have same : (handle (.mkdir (under m [l])) again).2 = again := by simp only [handle,dir]
    rw [same]
    exact core
  | one =>
    refine coreAgain core (fun _ other => by cases other) (fun _ other => by cases other) (fun rest same _ => ?_)
    cases underInjective (Op.mkdir.inj same)
    refine ⟨fun written => absurd (belowLength (writtenBelow written)) (by simp),fun s store => ?_⟩
    obtain ⟨name,path,_,entry⟩ := storeUnder m s
    have equal : l = name := (List.cons.inj (underInjective (store.trans path))).1
    exact plain rfl (equal ▸ entry)

structure Told (args : List PyObject) (modPath m : Text) (loads : List Text) : Prop where
  dir : argStr args 1 = .ok modPath
  model : argStr args 2 = .ok m
  loadNum : argInt args 3 = .ok (loads.length : Int)
  loadNames : argNames args 5 loads.length = .ok loads

def Generates (path : Path) (op : Op) : Prop :=
  op = .create path ∨ ∃ text, op = .write path text

theorem keepsModel {I : FS → Prop} {path : Path} {text : Except PyError Text}
    (keeps : ∀ op s, Generates path op → I s → I (handle op s).2) :
    Keeps handle I (writeModel path text) :=
  keepsOnly (onlyWriteModel (.inl rfl) (fun text => .inr ⟨text,rfl⟩)) keeps

theorem keepsTemplate {I : FS → Prop} {args : List PyObject} {modPath : Text} {loads : List Text}
    (told : Told args modPath m loads)
    (single : ∀ op s, Generates (templatePath m) op → I s → I (handle op s).2)
    (ensemble : ∀ s, I s → s (storePath m .one) = none →
      I ((genEnsemble modPath m loads).exec handle s).2) :
    Keeps handle I (genModelTemplate args) := by
  intro s holds
  simp only [genModelTemplate,told.dir,told.model,told.loadNum,raises,Prog.pureBind,
    Int.toNat_natCast]
  rw [execPerform]
  cases found : s (storePath m .one) with
  | none =>
    have reply : handle (.opens [piDir,m,oneStore m]) s = (.enoent,s) := by
      replace found : s [piDir,m,oneStore m] = none := found
      simp [handle,found]
    rw [reply,told.loadNames]
    exact ensemble s holds found
  | some node =>
    have reply : handle (.opens [piDir,m,oneStore m]) s = (.ok,s) := by
      replace found : s [piDir,m,oneStore m] = some node := found
      simp [handle,found]
    rw [reply]
    show I ((perform (.isfile (templatePath m)) >>= _).exec handle s).2
    rw [execPerform,testSame rfl]
    cases (handle (.isfile (templatePath m)) s).1 with
    | ok => exact holds
    | _ => exact keepsModel single s holds

theorem keepsRunProd {I : FS → Prop} {args : List PyObject} {modPath : Text} {loads : List Text}
    (told : Told args modPath m loads)
    (single : ∀ op s, Generates (templatePath m) op → I s → I (handle op s).2)
    (ensemble : ∀ s, I s → s (storePath m .one) = none →
      I ((genEnsemble modPath m loads).exec handle s).2) : Keeps handle I (runProd args) := by
  have raised : Keeps handle I (raises (argInt args 0)) := by
    cases argInt args 0 with
    | ok op => exact keepsPure op
    | error e => exact keepsStop e
  refine keepsBind raised (fun op => ?_)
  split
  · exact keepsTemplate told single ensemble
  · split
    · intro s holds
      simp only [genRModelTemplate,told.model,raises,Prog.pureBind]
      rw [execPerform,testSame rfl]
      cases (handle (.isfile [piDir,m,m ++ ".py".toList]) s).1 with
      | ok => exact holds
      | _ => exact keepsModel single s holds
    · exact keepsStop _

/- What genModelTemplate may do for an ensemble. -/
def EnsembleOp (m : Text) (loads : List Text) (op : Op) : Prop :=
  op.target = none ∨ op = .mkdir [piDir] ∨ op = .mkdir (under m []) ∨
    ∃ l ∈ loads, op = .mkdir (under m [l]) ∨ Generates (loadTemplatePath m l) op

theorem onlyEnsemble (modPath m : Text) (loads : List Text) :
    Only (EnsembleOp m loads) (genEnsemble modPath m loads) :=
  onlyGenEnsemble ⟨.inl rfl,.inl rfl⟩ (fun _ _ => .inl rfl) (fun _ _ => .inl rfl) (.inr (.inl rfl))
    (.inr (.inr (.inl rfl))) (fun l listed => .inr (.inr (.inr ⟨l,listed,.inl rfl⟩)))
    (fun l listed => .inr (.inr (.inr ⟨l,listed,.inr (.inl rfl)⟩)))
    (fun l listed text => .inr (.inr (.inr ⟨l,listed,.inr (.inr ⟨text,rfl⟩)⟩)))

theorem generatesFile {path : Path} {op : Op} (generates : Generates path op) :
    op.file = some path := by
  rcases generates with rfl | ⟨text,rfl⟩ <;> rfl

theorem aloneEnsemble (base : Base r left m) {k : Nat} {loads : List Text}
    (uses : r.Uses k m stg loads)
    (taken : stg = .one → left (storePath m .one) = none ∨ ∃ j others, r.Uses j m .ens others)
    {s t : FS} (core : Core r left m s t) (absent : s (storePath m .one) = none) (modPath : Text) :
    Core r left m ((genEnsemble modPath m loads).exec handle s).2 t := by
  have plain {l : Text} (listed : l ∈ loads) (j : Nat) (others : List Text)
      (single : r.Uses j m .one others) : l ∉ entries m :=
    plainLoad base.toReusable uses listed taken single
  have noText : fileText (s (storePath m .one)) = none := by
    rw [absent]
    rfl
  refine (keepsOnly (I := fun s => Core r left m s t ∧ fileText (s (storePath m .one)) = none)
    (onlyEnsemble modPath m loads) ?_ s ⟨core,noText⟩).1
  have made {s : FS} {path : Path} (core : Core r left m s t ∧ fileText (s (storePath m .one)) = none)
      (single : path = storePath m .one → left (storePath m .one) ≠ none) :
      Core r left m (handle (.mkdir path) s).2 t ∧
        fileText ((handle (.mkdir path) s).2 (storePath m .one)) = none := by
    refine ⟨coreAlone core.1 (fun _ other => by cases other) (fun _ other => by cases other)
      (soloMkdir core.1.solo (fun _ _ => ?_) single),?_⟩
    · rw [core.2]
      exact .inr (.inr fun other => by cases other)
    · rw [mkdirText]
      exact core.2
  rintro op s (quiet | rfl | rfl | ⟨l,listed,rfl | generates⟩) core
  · rw [testSame quiet]
    exact core
  · exact made core (fun same => absurd same (by simp [storePath]))
  · exact made core (fun same => absurd same (by simp [storePath,under]))
  · refine made core (fun same => ?_)
    cases stg with
    | one =>
      have entry : l ∉ entries m := plain listed k loads uses
      have equal : l = oneStore m := (List.cons.inj (underInjective (same : under m [l] = under m [oneStore m]))).1
      exact absurd (equal ▸ (by simp [entries])) entry
    | ens =>
      rw [← same,base.loadDirs k loads uses l listed]
      exact fun other => by cases other
  · have aside := loadTemplateAside (r := r) (m := m) (plain listed)
    refine ⟨(coreAside core.1 (generatesFile generates) aside).1,?_⟩
    rw [handleFile]
    · exact core.2
    · rw [generatesFile generates]
      exact fun same => aside.2.2 .one (Option.some.inj same)

theorem againEnsemble (base : Base r left m) {k : Nat} {loads : List Text}
    (uses : r.Uses k m stg loads)
    (taken : stg = .one → left (storePath m .one) = none ∨ ∃ j others, r.Uses j m .ens others)
    {s t : FS} (core : Core r left m s t) (grows : Grows left t) (modPath : Text) :
    Core r left m s ((genEnsemble modPath m loads).exec handle t).2 ∧
      Grows left ((genEnsemble modPath m loads).exec handle t).2 := by
  have plain {l : Text} (listed : l ∈ loads) (j : Nat) (others : List Text)
      (single : r.Uses j m .one others) : l ∉ entries m :=
    plainLoad base.toReusable uses listed taken single
  refine keepsOnly (I := fun t => Core r left m s t ∧ Grows left t)
    (onlyEnsemble modPath m loads) ?_ t ⟨core,grows⟩
  rintro op t allowed ⟨core,grows⟩
  refine ⟨?_,growsTrans grows (handleGrows op t)⟩
  rcases allowed with quiet | rfl | rfl | ⟨l,listed,rfl | generates⟩
  · rw [testSame quiet]
    exact core
  · refine coreAgain core nofun (fun _ => nofun) (fun rest same _ => ?_)
    cases Op.mkdir.inj same
  · refine coreAgain core nofun (fun _ => nofun) (fun rest same _ => ?_)
    cases underInjective (Op.mkdir.inj same)
    refine ⟨fun written => absurd (belowLength (writtenBelow written)) (by simp),fun s => ?_⟩
    cases s <;> simp [under,storePath]
  · refine coreLoadDir base core grows uses listed (fun one => ?_)
    subst one
    exact plain listed k loads uses
  · exact (coreAside core (generatesFile generates) (loadTemplateAside (plain listed))).2

theorem prodFollows (ctx : PIContext) (base : Base r left m) {k : Nat}
    {loads : List Text} (uses : r.Uses k m stg loads) (some_ : loads ≠ []) (stores : List Text) :
    Follows handle (fun s t => Old r left m s t ∧ Made r m stg s) (prod ctx m loads stores)
      (fun _ s t => Core r left m s t ∧ Made r m stg s) := by
  refine requireFollows (fun _ => liftFollows (fun t built => ?_))
  cases filled : t.args with
  | none => exact followsStop _
  | some args =>
    refine followsAttempt (fun s t' related => ?_)
    obtain ⟨⟨core,ground⟩,made⟩ := related
    obtain ⟨nmembs,found,passed,_⟩ := prodTupleArgs built
    cases filled.symm.trans passed
    have told : Told (prodArgs ctx m loads stores nmembs) ctx.modPath m loads := by
      have same := nmembsLength found
      cases loads with
      | nil => exact absurd rfl some_
      | cons l rest =>
        cases nmembs with
        | nil => cases same
        | cons nmemb more =>
          have asked : Asked _ _ _ _ _ nmemb := prodAsked ctx m l rest stores (Nat.succ.inj same)
          exact ⟨asked.dir,asked.model,asked.loadNum,asked.loadNames⟩
    have stays {op : Op} {s : FS} (made : Made r m stg s) : Made r m stg (handle op s).2 :=
      fun one single => keptPresent (handleGrows op s) (made one single)
    have first : Core r left m ((runProd (prodArgs ctx m loads stores nmembs)).exec handle s).2 t' ∧
        Made r m stg ((runProd (prodArgs ctx m loads stores nmembs)).exec handle s).2 := by
      refine keepsRunProd (I := fun s => Core r left m s t' ∧ Made r m stg s) told ?_ ?_ s
        ⟨core,made⟩
      · rintro op s generates ⟨core,made⟩
        exact ⟨(coreAside core (generatesFile generates) (templateAside r m)).1,stays made⟩
      · rintro s ⟨core,made⟩ absent
        have taken (one : stg = .one) :
            left (storePath m .one) = none ∨ ∃ j others, r.Uses j m .ens others := by
          by_contra neither
          rw [not_or,not_exists] at neither
          exact made one (fun j others used => neither.2 j ⟨others,used⟩) absent
        refine ⟨aloneEnsemble base uses taken core absent ctx.modPath,?_⟩
        exact keepsOnly (onlyAny _) (fun op s _ made => stays made) s made
    refine ⟨(keepsRunProd (I := fun t => Core r left m _ t ∧ Grows left t) told ?_ ?_ t'
      ⟨first.1,ground.grows⟩).1,first.2⟩
    · rintro op t generates ⟨core,grows⟩
      exact ⟨(coreAside core (generatesFile generates) (templateAside r m)).2,
        growsTrans grows (handleGrows op t)⟩
    · rintro t ⟨core,grows⟩ absent
      refine againEnsemble base uses (fun _ => .inl ?_) core grows ctx.modPath
      by_contra there
      exact keptPresent grows there absent

/- Where the child of this place has all it needs for a store of the model. -/
def Ready (r : Supervised) (left : FS) (m : Text) (stg : NNStg) (loads : List Text)
    (place : Text × Nat) (s t : FS) : Prop :=
  Old r left m s t ∧ Made r m stg s ∧ loads ≠ [] ∧ ∀ sub ∈ subs stg loads, DoneAt m place sub s t

theorem madeStays (op : Op) {s : FS} (made : Made r m stg s) : Made r m stg (handle op s).2 :=
  fun one single => keptPresent (handleGrows op s) (made one single)

theorem readyKept {α ε : Type} {p : Prog Op Reply ε α} {loads : List Text} {place : Text × Nat}
    (follows : Follows handle (Ready r left m stg loads place) p (fun _ => Core r left m)) :
    Follows handle (Ready r left m stg loads place) p
      (fun _ => Ready r left m stg loads place) := by
  have kept := followsKeeping
    (P := fun s t => Made r m stg s ∧ loads ≠ [] ∧ ∀ sub ∈ subs stg loads, DoneAt m place sub s t)
    (groundFollows follows (fun _ _ related => related.1.2)) (fun _ _ related => related.2)
    (fun op _ _ there => ⟨madeStays op there.1,there.2.1,fun sub inside =>
      doneStays (there.2.2 sub inside) (handleGrows op _) (growsRefl _)⟩)
    (fun op _ _ there => ⟨there.1,there.2.1,fun sub inside =>
      doneStays (there.2.2 sub inside) (growsRefl _) (handleGrows op _)⟩)
  exact followsWeaken kept (fun _ _ related => related) (fun _ _ _ after => after)

theorem loadsReady (ctx : PIContext) (base : Base r left m) {k : Nat}
    {loads : List Text} (uses : r.Uses k m stg loads) (some_ : loads ≠ []) :
    Follows handle (fun s t => Old r left m s t ∧ Made r m stg s)
      (writeLoads ctx m stg loads (placeOf r.n k).1 (placeOf r.n k).2)
      (fun _ => Ready r left m stg loads (placeOf r.n k)) := by
  have wrote := followsWeaken (writeLoadsFollows ctx base uses)
    (fun s t (related : Old r left m s t ∧ Made r m stg s) => related.1)
    (fun _ _ _ after => after)
  exact followsWeaken (followsKeeping (P := fun s _ => Made r m stg s) wrote
    (fun _ _ related => related.2) (fun op _ _ => madeStays op) (fun _ _ _ made => made))
    (fun _ _ related => related) (fun _ _ _ after => ⟨after.1.1,after.2,some_,after.1.2⟩)

theorem nnFollows (base : Base r left m) {k : Nat} {loads : List Text}
    (uses : r.Uses k m stg loads) (place : dataPlace ctx = some (placeOf r.n k))
    (stores : List Text) : Follows handle
      (fun s t => Old r left m s t ∧ (s (under m []) = some .dir → Made r m stg s))
      (nn ctx m stg loads stores)
      (fun _ => Ready r left m stg loads (placeOf r.n k)) := by
  unfold nn
  refine requireFollows (fun some_ => requireFollows (fun _ => liftFollows (fun mid combined => ?_)))
  have here : dataPlace mid = some (placeOf r.n k) := by
    rw [combineLoadFramed combined]
    exact place
  have loaded : loads ≠ [] := by simpa using some_
  have begun := followsWeaken (loadsReady mid base uses loaded)
    (fun s t (related : (Core r left m s t ∧ Made r m stg s) ∧ Ground left s t) =>
      ⟨⟨related.1.1,related.2⟩,related.1.2⟩) (fun _ _ _ after => after)
  refine followsBind (groundFollows (createDirFollows base uses) (fun _ _ related => related.1.2))
    (fun _ => ?_)
  rw [here]
  refine followsBind begun (fun _ => ?_)
  have python := readyKept (followsWeaken
    (prodFollows (recordStores mid m stg loads stores) base uses loaded stores)
    (fun s t (related : Ready r left m stg loads (placeOf r.n k) s t) => ⟨related.1,related.2.1⟩)
    (fun _ _ _ after => after.1))
  show Follows handle _ (if (recordStores mid m stg loads stores).trainIt = 0 then
    prod (recordStores mid m stg loads stores) m loads stores >>= fun _ => pure _ else pure _) _
  split
  · exact followsBind python (fun _ => followsPure fun _ _ related => related)
  · exact followsPure fun _ _ related => related

theorem storeFileRan {dir : Path} {name : Text} {dataIdx : Nat} {s t : FS}
    (ran : (writeStoreFile ctx dir dataIdx name).exec handle s = (.ok (),t)) :
    ∃ text, Section ctx name text ∧ t = Function.update s (dir ++ [decimal dataIdx])
      (some (.file (contents s (dir ++ [decimal dataIdx]) ++ text))) := by
  rw [writeStoreFile,execPerform,testSame rfl] at ran
  cases opened : (handle (.opensDir dir) s).1 with
  | ok =>
    rw [opened] at ran
    replace ran : (writeStoreData (ctx.storeMap name) ctx.memory name
      (dir ++ [decimal dataIdx])).exec handle s = (.ok (),t) := ran
    cases known : ctx.storeMap name with
    | none => rw [known] at ran; cases ran
    | some pDC =>
      rw [known] at ran
      obtain ⟨values,_,lifted,rest⟩ := execBind ran
      obtain ⟨held,rfl⟩ := liftRan lifted
      rw [execPerform] at rest
      cases reply : (handle (.append (dir ++ [decimal dataIdx])
        (storeText name pDC.nmemb values)) s).1 with
      | ok =>
        rw [reply,appendOk reply] at rest
        cases rest
        exact ⟨_,⟨pDC,values,known,held,rfl⟩,rfl⟩
      | _ => rw [reply] at rest; cases rest
  | _ => rw [opened] at ran; cases ran

theorem storeFileReady {dir : Path} {name text old : Text} {dataIdx : Nat} {s : FS}
    (holds : Section ctx name text) (there : s dir = some .dir)
    (found : s (dir ++ [decimal dataIdx]) = some (.file old)) :
    (writeStoreFile ctx dir dataIdx name).exec handle s = (.ok (),Function.update s
      (dir ++ [decimal dataIdx]) (some (.file (contents s (dir ++ [decimal dataIdx]) ++ text)))) := by
  obtain ⟨pDC,values,known,held,rfl⟩ := holds
  rw [writeStoreFile,execPerform,testSame rfl,opensDirIff.mpr there]
  show (writeStoreData (ctx.storeMap name) ctx.memory name _).exec handle s = _
  unfold writeStoreData
  simp only [known,held,lift,Prog.pureBind]
  rw [execPerform,appendFile found]
  rfl

theorem storeFileFollows (ctx : PIContext) (base : Base r left m) {k : Nat}
    {loads : List Text} (uses : r.Uses k m stg loads) {sub : Path} (inside : sub ∈ subs stg loads)
    (name : Text) : Follows handle (Ready r left m stg loads (placeOf r.n k))
      (writeStoreFile ctx (under m (sub ++ [(placeOf r.n k).1])) (placeOf r.n k).2 name)
      (fun _ => Core r left m) := by
  intro s t u s' related ran
  obtain ⟨⟨core,_⟩,_,_,done⟩ := related
  obtain ⟨text,holds,rfl⟩ := storeFileRan ran
  have path : under m (sub ++ [(placeOf r.n k).1]) ++ [decimal (placeOf r.n k).2] =
      under m (sub ++ [(placeOf r.n k).1,decimal (placeOf r.n k).2]) := by
    simp [under]
  have below : Below r m (sub ++ [(placeOf r.n k).1,decimal (placeOf r.n k).2]) :=
    writtenBelow ⟨k,stg,loads,uses,sub,inside,rfl⟩
  obtain ⟨there,file⟩ := done sub inside
  have same : fileText (t (under m (sub ++ [(placeOf r.n k).1,decimal (placeOf r.n k).2]))) =
      fileText (s (under m (sub ++ [(placeOf r.n k).1,decimal (placeOf r.n k).2]))) := by
    rcases core.data _ below with same | ⟨none_,_⟩
    · exact same
    · rw [none_] at file
      cases file
  obtain ⟨old,found⟩ : ∃ old, t (under m (sub ++ [(placeOf r.n k).1,decimal (placeOf r.n k).2])) =
      some (.file old) := by
    rw [← same] at file
    cases found : t (under m (sub ++ [(placeOf r.n k).1,decimal (placeOf r.n k).2])) with
    | none => rw [found] at file; cases file
    | some node =>
      cases node with
      | dir => rw [found] at file; cases file
      | file old => exact ⟨old,rfl⟩
  have also := storeFileReady holds there (path ▸ found)
  rw [path] at also ⊢
  have equal : contents t (under m (sub ++ [(placeOf r.n k).1,decimal (placeOf r.n k).2])) =
      contents s (under m (sub ++ [(placeOf r.n k).1,decimal (placeOf r.n k).2])) := by
    rw [contents,same]
    rfl
  refine ⟨_,also,?_⟩
  rw [equal]
  exact coreData base.toReusable core below _

theorem writeStoresFollows (ctx : PIContext) (base : Base r left m) {k : Nat}
    {loads : List Text} (uses : r.Uses k m stg loads) (name : Text) :
    Follows handle (Ready r left m stg loads (placeOf r.n k))
      (writeStores ctx m stg loads (placeOf r.n k).1 (placeOf r.n k).2 name)
      (fun _ => Ready r left m stg loads (placeOf r.n k)) := by
  cases stg with
  | one =>
    refine requireFollows (fun _ => ?_)
    exact readyKept (storeFileFollows ctx base uses (List.mem_singleton_self _) name)
  | ens =>
    refine requireFollows (fun _ => ?_)
    have files (names : List Text) (listed : ∀ l ∈ names, l ∈ loads) :
        Follows handle (Ready r left m .ens loads (placeOf r.n k))
          (writeStoreFiles ctx m (placeOf r.n k).1 (placeOf r.n k).2 name names)
          (fun _ => Ready r left m .ens loads (placeOf r.n k)) := by
      induction names with
      | nil => exact followsPure fun _ _ related => related
      | cons l rest ih =>
        have inside : [l] ∈ subs .ens loads :=
          List.mem_map.mpr ⟨l,listed l List.mem_cons_self,rfl⟩
        exact followsBind (readyKept (storeFileFollows ctx base uses inside name))
          (fun _ => ih fun other named => listed other (List.mem_cons_of_mem l named))
    exact files loads (fun _ listed => listed)

theorem storeInfoRan {name : Text} {tID : TypeID} {nmemb : Int} {s t : FS}
    (ran : (prodWriteStoreInfo m name tID nmemb stg).exec handle s = (.ok (),t)) :
    t = Function.update s (storePath m stg)
      (some (.file (contents s (storePath m stg) ++ storeRecord name tID nmemb))) := by
  rw [prodWriteStoreInfo,execPerform,testSame rfl] at ran
  cases tested : (handle (.opensDir [piDir,m]) s).1 with
  | ok =>
    rw [tested] at ran
    replace ran : ((perform (.opens (storePath m stg)) : Steps Reply) >>= _).exec handle s =
      (.ok (),t) := ran
    rw [execPerform,testSame rfl] at ran
    cases found : s (storePath m stg) with
    | some node =>
      have opened : (handle (.opens (storePath m stg)) s).1 = .ok := by simp [handle,found]
      rw [opened] at ran
      replace ran : ((perform (.append (storePath m stg) (storeRecord name tID nmemb)) :
        Steps Reply) >>= _).exec handle s = (.ok (),t) := ran
      rw [execPerform] at ran
      cases added : (handle (.append (storePath m stg) (storeRecord name tID nmemb)) s).1 with
      | ok =>
        rw [added,appendOk added] at ran
        cases ran
        rfl
      | _ => rw [added] at ran; cases ran
    | none =>
      have opened : (handle (.opens (storePath m stg)) s).1 = .enoent := by simp [handle,found]
      rw [opened] at ran
      replace ran : (touch (storePath m stg) >>= _).exec handle s = (.ok (),t) := ran
      obtain ⟨_,mid,first,rest⟩ := execBind ran
      rw [touchedOk first,execPerform,writeNew] at rest
      cases rest
      rw [contents,found]
      rfl
  | _ => rw [tested] at ran; cases ran

theorem storeInfoReady {name : Text} {tID : TypeID} {nmemb : Int} {s : FS}
    (root : s (under m []) = some .dir) (noDir : s (storePath m stg) ≠ some .dir) :
    (prodWriteStoreInfo m name tID nmemb stg).exec handle s = (.ok (),Function.update s
      (storePath m stg) (some (.file (contents s (storePath m stg) ++ storeRecord name tID nmemb)))) := by
  have tested : (handle (.opensDir [piDir,m]) s).1 = .ok := opensDirIff.mpr root
  rw [prodWriteStoreInfo,execPerform,testSame rfl,tested]
  show ((perform (.opens (storePath m stg)) : Steps Reply) >>= _).exec handle s = _
  rw [execPerform,testSame rfl]
  cases found : s (storePath m stg) with
  | some node =>
    cases node with
    | dir => exact absurd found noDir
    | file old =>
      have opened : (handle (.opens (storePath m stg)) s).1 = .ok := by simp [handle,found]
      rw [opened]
      show ((perform (.append (storePath m stg) (storeRecord name tID nmemb)) : Steps Reply) >>=
        _).exec handle s = _
      rw [execPerform,appendFile found]
      rfl
  | none =>
    have opened : (handle (.opens (storePath m stg)) s).1 = .enoent := by simp [handle,found]
    have parent : s (storePath m stg).dropLast = some .dir := by cases stg <;> exact root
    have made : (touch (storePath m stg)).exec handle s =
        (.ok (),Function.update s (storePath m stg) (some (.file []))) := by
      rw [touch,execPerform,createReady noDir parent]
      rfl
    rw [opened]
    show (touch (storePath m stg) >>= _).exec handle s = _
    rw [execReturned made,execPerform,writeNew,contents,found]
    rfl

theorem storeInfoFollows (base : Base r left m) {k : Nat} {loads : List Text}
    (uses : r.Uses k m stg loads) (name : Text) (tID : TypeID) (nmemb : Int) :
    Follows handle (Ready r left m stg loads (placeOf r.n k)) (prodWriteStoreInfo m name tID nmemb stg)
      (fun _ => Core r left m) := by
  rintro s t u s' ⟨⟨core,ground⟩,_,some_,done⟩ ran
  rw [storeInfoRan ran]
  refine ⟨_,storeInfoReady (ground.grows.dir _ base.root) (core.storeFile k stg loads uses),
    coreRecord core uses (by simp [storeRecord,line]) ?_⟩
  -- an ensemble has written below its loads, which a single model without a record has not
  rintro rfl empty
  obtain ⟨l,rest,rfl⟩ := List.exists_cons_of_ne_nil some_
  have inside : [l] ∈ subs .ens (l :: rest) := List.mem_map.mpr ⟨l,List.mem_cons_self,rfl⟩
  have file := (done [l] inside).2
  have top (more : Path) : [piDir] <+: under m more := ⟨m :: more,rfl⟩
  have data : s (under m [l,(placeOf r.n k).1]) = some .dir :=
    ground.rooted (under m [l,(placeOf r.n k).1]) _ (top _) (textPresent file)
  have dir : s (under m [l]) = some .dir :=
    ground.rooted (under m [l]) (placeOf r.n k).1 (top _) (Option.isSome_iff_exists.mpr ⟨_,data⟩)
  obtain ⟨j,others,single⟩ := core.solo.used (by rw [empty]; exact fun other => by cases other)
  have entry : l ∉ entries m := plainLoad base.toReusable uses List.mem_cons_self (fun other => by cases other) single
  exact entry (dataEntry (core.solo.bare empty l dir) m)

theorem storeFollows (base : Base r left m) {k : Nat} {loads : List Text}
    (uses : r.Uses k m stg loads) (place : dataPlace ctx = some (placeOf r.n k)) {name : Text}
    (entry : ctx.storeModelMap name = some ((m,stg),loads)) (tID : TypeID) (nmemb : Int)
    (data : Pointer) : Follows handle (Ready r left m stg loads (placeOf r.n k))
      (store ctx name tID nmemb data) (fun _ => Ready r left m stg loads (placeOf r.n k)) := by
  unfold store
  rw [entry]
  refine liftFollows (fun mid stored => ?_)
  have here : dataPlace mid = some (placeOf r.n k) := by
    rw [storeContextFramed stored]
    exact place
  have info := readyKept (storeInfoFollows base uses name tID nmemb)
  rw [here]
  refine followsBind (writeStoresFollows mid base uses name) (fun _ => ?_)
  show Follows handle _ (if mid.trainIt = 0 then
    prodWriteStoreInfo m name tID nmemb stg >>= fun _ => pure mid else pure mid) _
  split
  · exact followsBind info (fun _ => followsPure fun _ _ related => related)
  · exact followsPure fun _ _ related => related

end

end Autonomizer.Beside
