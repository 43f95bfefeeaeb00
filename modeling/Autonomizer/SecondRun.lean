import Mathlib
import Autonomizer.PINNHelper
import Autonomizer.Reread
import Autonomizer.Rerun
import Autonomizer.StoreFile

/-! What a second run leaves beside what it leaves on an empty .piDir: the rows of its data
directories and the stores that are read back. -/
namespace Autonomizer.SecondRun
open Beside Binary64 Data FileIO FileSystem Format Leftovers PIInc PINNHelper Process
open ProgIntel Reread Rerun SingleModel StoreInfo TwoStates
open StoreFile (onlyMain)

def rows (ds : Dataset) : List (List Fp × List Fp) := ds.dsIn.zip ds.dsOut

section
variable {fs other : FS} {dir : Path}

theorem readsSame (same : ∀ rest, rest ≠ [] → fileText (other (dir ++ rest)) = fileText (fs (dir ++ rest)))
    {path : Path} (below : ∃ rest, rest ≠ [] ∧ path = dir ++ rest) {row : List Fp × List Fp}
    (reads : Reads fs path row) : Reads other path row := by
  obtain ⟨rest,some_,rfl⟩ := below
  obtain ⟨text,r,found,read,arrays⟩ := reads
  have also : fileText (other (dir ++ rest)) = some text := by
    rw [same rest some_,found]
    rfl
  refine ⟨text,r,?_,read,arrays⟩
  cases node : other (dir ++ rest) with
  | none => rw [node] at also; cases also
  | some node' =>
    rw [node] at also
    cases node' with
    | dir => cases also
    | file text' => cases also; rfl

theorem sameRows (same : ∀ rest, rest ≠ [] → fileText (other (dir ++ rest)) = fileText (fs (dir ++ rest)))
    {files files' : List Path} (walk : Walk fs dir files) (walk' : Walk other dir files') {ds : Dataset}
    (read : Dataset.init fs files = .ok ds) :
    ∃ ds', Dataset.init other files' = .ok ds' ∧ (rows ds').Perm (rows ds) := by
  have perm : files'.Perm files := by
    refine (List.perm_ext_iff_of_nodup walk'.once walk.once).mpr (fun path => ?_)
    rw [walk'.below,walk.below]
    refine and_congr_right fun below => ?_
    obtain ⟨rest,some_,rfl⟩ := below
    rw [same rest some_]
  obtain ⟨all,each,dsIn,dsOut⟩ := datasetRows read
  have also : List.Forall₂ (Reads other) files all :=
    ((List.forall₂_and_left files all).mpr ⟨fun path inside => ((walk.below path).mp inside).1,each⟩).imp
      fun _ _ here => readsSame same here.1 here.2
  obtain ⟨all',each',perm'⟩ := List.perm_comp_forall₂ perm also
  obtain ⟨ds',done,dsIn',dsOut'⟩ := datasetRead (d := ⟨[],[],0,-1,0⟩) each'
  refine ⟨ds',done,?_⟩
  have zipped (table : List (List Fp × List Fp)) : (table.map Prod.fst).zip (table.map Prod.snd) = table := by
    rw [List.zip_map']
    exact List.map_id table
  have rows' : rows ds' = all' := by
    rw [rows,dsIn',dsOut']
    exact zipped all'
  have rows_ : rows ds = all := by
    rw [rows,dsIn,dsOut]
    exact zipped all
  rw [rows',rows_]
  exact perm'

end

section
variable {r : Supervised} {left alone again : FS} {m : Text} {stg : NNStg} {fs : FS}

theorem nodeText {path : Path} {node : Node} (found : fs path = some node) :
    node.text = contents fs path := by
  rw [contents,found]
  cases node <;> rfl

theorem noContents {path : Path} (none_ : fs path = none) : contents fs path = [] := by
  rw [contents,none_]
  rfl

theorem oneText {node : Node} (found : fs (storePath m .one) = some node) :
    infoText fs m = some (contents fs (storePath m .one)) := by
  rw [infoText,found,← nodeText found]

theorem ensText {node : Node} (none_ : fs (storePath m .one) = none)
    (found : fs (storePath m .ens) = some node) :
    infoText fs m = some (contents fs (storePath m .ens)) := by
  rw [infoText,none_,found,← nodeText found]
  rfl

theorem storeListed (rooted : Rooted [piDir] fs) (plain : m ≠ ['.'] ∧ m ≠ ['.','.'])
    (there : fs (storePath m stg) ≠ none) : Listed fs m := by
  obtain ⟨name,path,_⟩ := storeUnder m stg
  rw [path] at there
  exact ⟨plain,rooted (under m []) name ⟨[m],rfl⟩ (Option.ne_none_iff_isSome.mp there)⟩

theorem textRecords (recorded : Recorded fs) {text : Text} (found : infoText fs m = some text) :
    ∃ records, text = recordsText records := by
  unfold infoText at found
  split at found
  · next node here =>
    cases found
    rw [nodeText here]
    exact recorded m .one
  · obtain ⟨node,here,rfl⟩ := Option.map_eq_some_iff.mp found
    rw [nodeText here]
    exact recorded m .ens

/- What is read of a model after both runs: what was read of it in what was left, then what is
read of it after the run alone. -/
structure Joined (left alone again : FS) (m : Text) (old own : Text) : Prop where
  text : infoText again m = some (old ++ own)
  first : old = [] ∨ (Listed left m ∧ infoText left m = some old)
  second : own = [] ∨ (Listed alone m ∧ infoText alone m = some own)
  whole : ∀ text, infoText alone m = some text → text = [] ∨ text = own

def Resumed (r : Supervised) (left alone : FS) : Prop :=
  ∀ k m stg loads, r.Uses k m stg loads → left (storePath m .one) ≠ none → alone (storePath m .one) ≠ none

theorem joinedCore (core : Core r left m alone again) (grows : Grows left again)
    (rooted : Rooted [piDir] alone) (resumed : left (storePath m .one) ≠ none → alone (storePath m .one) ≠ none)
    (listed : Listed left m) (readable : infoText left m ≠ none) :
    ∃ old own, Joined left alone again m old own := by
  have own (s : NNStg) (text : ∀ node, alone (storePath m s) = some node →
      infoText alone m = some (contents alone (storePath m s))) :
      contents alone (storePath m s) = [] ∨
        (Listed alone m ∧ infoText alone m = some (contents alone (storePath m s))) := by
    cases found : alone (storePath m s) with
    | none => exact .inl (noContents found)
    | some node =>
      exact .inr ⟨storeListed rooted listed.1 (by rw [found]; exact nofun),text node found⟩
  cases one : again (storePath m .one) with
  | some node =>
    have present : alone (storePath m .one) ≠ none := by
      rcases core.present (by rw [one]; exact nofun) with there | there
      · exact resumed there
      · exact there
    obtain ⟨made,found⟩ := Option.ne_none_iff_exists'.mp present
    refine ⟨contents left (storePath m .one),contents alone (storePath m .one),?_,?_,?_,?_⟩
    · rw [oneText one,core.store]
    · cases before : left (storePath m .one) with
      | none => exact .inl (noContents before)
      | some node => exact .inr ⟨listed,oneText before⟩
    · exact own .one fun node found => oneText found
    · intro text same
      exact .inr (Option.some.inj (same.symm.trans (oneText found)))
  | none =>
    have noOld : left (storePath m .one) = none := by
      by_contra there
      exact keptPresent grows there one
    obtain ⟨node,before⟩ : ∃ node, left (storePath m .ens) = some node := by
      refine Option.ne_none_iff_exists'.mp fun none_ => readable ?_
      rw [infoText,noOld,none_]
      rfl
    obtain ⟨node',after⟩ := Option.ne_none_iff_exists'.mp
      (keptPresent grows (by rw [before]; exact nofun : left (storePath m .ens) ≠ none))
    -- the single store file of the run alone has no text, or is not there
    have bare : alone (storePath m .one) = none ∨ (fileText (alone (storePath m .one)) = some [] ∧
        infoText alone m = some []) := by
      cases found : alone (storePath m .one) with
      | none => exact .inl rfl
      | some made =>
        cases made with
        | dir => exact absurd noOld (core.solo.single found)
        | file text =>
          have both := core.store .one
          rw [noContents one,noContents noOld,contentsFile found,List.nil_append] at both
          refine .inr ⟨by rw [← both]; rfl,?_⟩
          rw [oneText found,contentsFile found,← both]
    refine ⟨contents left (storePath m .ens),contents alone (storePath m .ens),?_,?_,?_,?_⟩
    · rw [ensText one after,core.store]
    · exact .inr ⟨listed,ensText noOld before⟩
    · rcases bare with none_ | ⟨empty,_⟩
      · exact own .ens fun node found => ensText none_ found
      · exact .inl (core.solo.unread empty)
    · intro text same
      rcases bare with none_ | ⟨_,empty⟩
      · cases found : alone (storePath m .ens) with
        | none =>
          rw [infoText,none_,found] at same
          cases same
        | some made => exact .inr (Option.some.inj (same.symm.trans (ensText none_ found)))
      · exact .inl (Option.some.inj (same.symm.trans empty))

theorem joined (remains : Remains r left) (both : Both r left alone again) (resumed : Resumed r left alone)
    (oldRead : ∀ m, Listed left m → infoText left m ≠ none)
    (ownRead : ∀ m, Listed alone m → infoText alone m ≠ none) (listed : Listed again m) :
    ∃ old own, Joined left alone again m old own := by
  have rooted := both.ground.rooted
  by_cases none_ : left (under m []) = none
  · have same := (both.each m).fresh none_
    have there : Listed alone m := ⟨listed.1,(same []).symm.trans listed.2⟩
    obtain ⟨text,found⟩ := Option.ne_none_iff_exists'.mp (ownRead m there)
    have also : infoText again m = infoText alone m := by
      have one : again (storePath m .one) = alone (storePath m .one) := same [oneStore m]
      have ens : again (storePath m .ens) = alone (storePath m .ens) := same [ensStore m]
      rw [infoText,one,ens]
      rfl
    exact ⟨[],text,by rw [also,found]; rfl,.inl rfl,.inr ⟨there,found⟩,
      fun other here => .inr (Option.some.inj (here.symm.trans found))⟩
  · by_cases used : ∃ k stg loads, r.Uses k m stg loads
    · obtain ⟨k,stg,loads,uses⟩ := used
      have there : Listed left m := ⟨listed.1,(remains.base none_ uses).root⟩
      exact joinedCore ((both.each m).old none_ k stg loads uses).1 both.ground.grows rooted
        (resumed k m stg loads uses) there (oldRead m there)
    · have unused := (both.each m).other fun k stg loads uses => used ⟨k,stg,loads,uses⟩
      have there : Listed left m := ⟨listed.1,(unused []).1.symm.trans listed.2⟩
      obtain ⟨text,found⟩ := Option.ne_none_iff_exists'.mp (oldRead m there)
      have one := unused [oneStore m]
      have ens := unused [ensStore m]
      refine ⟨text,[],?_,.inr ⟨there,found⟩,.inl rfl,fun other here => ?_⟩
      · rw [List.append_nil,← found]
        show infoText again m = infoText left m
        simp only [infoText,storePath]
        simp only [under] at one ens
        rw [one.1,ens.1]
      · simp only [infoText,storePath] at here
        simp only [under] at one ens
        rw [one.2,ens.2] at here
        cases here

/- What was left and what the run makes alone can both be read, and do not disagree. -/
structure Agreed (r : Supervised) (left alone : FS) (old own : StoreMap) : Prop where
  leftRead : ∃ entries, Lists left entries ∧ readStoreInfo left entries (fun _ => none) = .ok old
  aloneRead : ∃ entries, Lists alone entries ∧ readStoreInfo alone entries (fun _ => none) = .ok own
  same : ∀ name pDC other, own name = some pDC → old name = some other →
    other.tID = pDC.tID ∧ other.nmemb = pDC.nmemb
  leftGiven : AllGiven left
  aloneGiven : AllGiven alone
  resumed : Resumed r left alone

theorem entriesRead {entries : List Text} {map last : StoreMap}
    (read : readStoreInfo fs entries map = .ok last) :
    fs [piDir] = some .dir ∧ entries.foldlM (readModel fs) map = .ok last := by
  unfold readStoreInfo at read
  split at read
  · next main => exact ⟨main,read⟩
  · cases read

theorem readAbsorbed {last larger : StoreMap} (given : AllGiven fs)
    (read : ∃ entries, Lists fs entries ∧ readStoreInfo fs entries (fun _ => none) = .ok last)
    (has : Extends last larger) (listed : Listed fs m) :
    ∃ text, infoText fs m = some text ∧ readStoreFile larger text = .ok larger := by
  obtain ⟨entries,lists,read⟩ := read
  have inside : m ∈ entries := (lists m).mpr (.inr (.inr (by rw [listed.2]; rfl)))
  exact entriesAbsorbed given (entriesRead read).2 has inside listed

theorem readText {last : StoreMap} (given : AllGiven fs)
    (read : ∃ entries, Lists fs entries ∧ readStoreInfo fs entries (fun _ => none) = .ok last)
    (m : Text) (listed : Listed fs m) : infoText fs m ≠ none := by
  obtain ⟨text,found,_⟩ := readAbsorbed given read (extendsRefl last) listed
  rw [found]
  exact nofun

theorem emptyAbsorbed (larger : StoreMap) : readStoreFile larger [] = .ok larger := by
  rw [readStoreFile,fgetsAll]
  rfl

def merged (old own : StoreMap) : StoreMap := fun name => (own name).or (old name)

theorem ownMerged (old own : StoreMap) : Extends own (merged old own) := by
  intro name pDC found
  exact ⟨pDC,by rw [merged,found]; rfl,fun _ => rfl,fun _ => rfl⟩

theorem oldMerged {old own : StoreMap} (same : ∀ name pDC other, own name = some pDC →
      old name = some other → other.tID = pDC.tID ∧ other.nmemb = pDC.nmemb) :
    Extends old (merged old own) := by
  intro name other found
  cases here : own name with
  | none => exact ⟨other,by rw [merged,here,found]; rfl,fun _ => rfl,fun _ => rfl⟩
  | some pDC =>
    obtain ⟨type,nmemb⟩ := same name pDC other here found
    exact ⟨pDC,by rw [merged,here]; rfl,fun _ => type.symm,fun _ => nmemb.symm⟩

section
variable {old own : StoreMap}

theorem listedAgain (remains : Remains r left) (both : Both r left alone again)
    (listed : Listed alone m) : Listed again m := by
  refine ⟨listed.1,?_⟩
  have dir : alone (under m []) = some .dir := listed.2
  by_cases none_ : left (under m []) = none
  · exact ((both.each m).fresh none_ []).trans dir
  · by_cases used : ∃ k stg loads, r.Uses k m stg loads
    · obtain ⟨k,stg,loads,uses⟩ := used
      exact both.ground.grows.dir _ (remains.base none_ uses).root
    · have unused := (both.each m).other (fun k stg loads uses => used ⟨k,stg,loads,uses⟩) []
      rw [unused.2] at dir
      cases dir

theorem mergedAgain (remains : Remains r left) (ground : Kept alone) (both : Both r left alone again)
    (agreed : Agreed r left alone old own) (listed : Listed again m) :
    ∃ text, infoText again m = some text ∧ AllSet text ∧
      readStoreFile (merged old own) text = .ok (merged old own) := by
  have oldRead (m : Text) (listed : Listed left m) :=
    readAbsorbed agreed.leftGiven agreed.leftRead (oldMerged agreed.same) listed
  have ownRead (m : Text) (listed : Listed alone m) :=
    readAbsorbed agreed.aloneGiven agreed.aloneRead (ownMerged old own) listed
  -- each part has no text or is a file that was read
  have part {fs : FS} (recorded : Recorded fs) (given : AllGiven fs)
      (read : ∀ m, Listed fs m → ∃ text, infoText fs m = some text ∧
        readStoreFile (merged old own) text = .ok (merged old own)) {text : Text}
      (from_ : text = [] ∨ (Listed fs m ∧ infoText fs m = some text)) :
      ∃ records, text = recordsText records ∧ AllSet text ∧
        readStoreFile (merged old own) text = .ok (merged old own) := by
    rcases from_ with rfl | ⟨here,same⟩
    · refine ⟨[],rfl,fun s inside => ?_,emptyAbsorbed _⟩
      rw [fgetsAll] at inside
      cases inside
    · obtain ⟨records,text⟩ := textRecords recorded same
      obtain ⟨other,also,absorbed⟩ := read m here
      cases same.symm.trans also
      exact ⟨records,text,given m _ here same,absorbed⟩
  obtain ⟨first,second,joined⟩ := joined remains both agreed.resumed
    (readText agreed.leftGiven agreed.leftRead) (readText agreed.aloneGiven agreed.aloneRead) listed
  obtain ⟨records,rfl,set,absorbed⟩ := part remains.kept.recorded agreed.leftGiven oldRead joined.first
  obtain ⟨records',rfl,set',absorbed'⟩ := part ground.recorded agreed.aloneGiven ownRead joined.second
  exact ⟨_,joined.text,allSetAppend set set',joinedAbsorbed absorbed absorbed'⟩

theorem ownAgain (remains : Remains r left) (ground : Kept alone) (both : Both r left alone again)
    (agreed : Agreed r left alone old own) {map : StoreMap}
    (has : ∀ m, Listed again m → ∃ text, infoText again m = some text ∧
      readStoreFile map text = .ok map) (listed : Listed alone m) :
    ∃ text, infoText alone m = some text ∧ readStoreFile map text = .ok map := by
  have ownRead := readText agreed.aloneGiven agreed.aloneRead
  have there := listedAgain remains both listed
  obtain ⟨first,second,joined⟩ := joined remains both agreed.resumed
    (readText agreed.leftGiven agreed.leftRead) ownRead there
  obtain ⟨text,found⟩ := Option.ne_none_iff_exists'.mp (ownRead m listed)
  refine ⟨text,found,?_⟩
  rcases joined.whole text found with rfl | rfl
  · exact emptyAbsorbed map
  · obtain ⟨records',same⟩ := textRecords ground.recorded found
    obtain ⟨records,text⟩ : ∃ records, first = recordsText records := by
      rcases joined.first with empty | ⟨_,also⟩
      · exact ⟨[],empty⟩
      · exact textRecords remains.kept.recorded also
    obtain ⟨whole,also,absorbed⟩ := has m there
    cases joined.text.symm.trans also
    subst same text
    exact ownAbsorbed absorbed (agreed.aloneGiven m _ listed found)

theorem readAgain (remains : Remains r left) (ground : Kept alone) (both : Both r left alone again)
    (agreed : Agreed r left alone old own) (entries : List Text) (lists : Lists again entries) :
    ∃ map, readStoreInfo again entries (fun _ => none) = .ok map ∧
      ∀ name pDC, own name = some pDC → ∃ other, map name = some other ∧
        other.tID = pDC.tID ∧ other.nmemb = pDC.nmemb := by
  have whole (m : Text) (listed : Listed again m) := mergedAgain remains ground both agreed listed
  have given : AllGiven again := by
    intro m text listed found
    obtain ⟨other,also,set,_⟩ := whole m listed
    cases found.symm.trans also
    exact set
  have has (m : Text) (_ : m ∈ entries) (listed : Listed again m) : ∃ text, infoText again m = some text ∧
      readStoreFile (merged old own) text = .ok (merged old own) := by
    obtain ⟨text,found,_,absorbed⟩ := whole m listed
    exact ⟨text,found,absorbed⟩
  obtain ⟨map,read,inside⟩ := entriesBelow given has (extendsNone _)
  have top := both.ground.grows.dir _ remains.kept.main
  have readAll : readStoreInfo again entries (fun _ => none) = .ok map := by
    rw [readStoreInfo,if_pos top]
    exact read
  -- what was read last has every file of the run alone
  obtain ⟨all,_,first⟩ := agreed.aloneRead
  have hasOwn (m : Text) (_ : m ∈ all) (listed : Listed alone m) := ownAgain remains ground both agreed
    (fun m there => readAbsorbed given ⟨entries,lists,readAll⟩ (extendsRefl map) there) listed
  obtain ⟨last,second,below⟩ := entriesBelow agreed.aloneGiven hasOwn (extendsNone _)
  cases second.symm.trans (entriesRead first).2
  refine ⟨map,readAll,fun name pDC found => ?_⟩
  obtain ⟨other,there,type,nmemb⟩ := below name pDC found
  obtain ⟨same,here,type',nmemb'⟩ := inside name other there
  have equal : same = pDC := by
    rw [merged,found] at here
    exact (Option.some.inj here).symm
  subst equal
  refine ⟨other,there,?_,?_⟩
  · by_cases unset_ : same.tID = .none
    · by_contra apart
      exact apart (type' (fun none_ => apart (none_.trans unset_.symm))).symm
    · exact type unset_
  · by_cases unset_ : same.nmemb = -1
    · by_contra apart
      exact apart (nmemb' (fun none_ => apart (none_.trans unset_.symm))).symm
    · exact nmemb unset_

end

end

/- R2 on what R1 has left, wherever R1 has ended, beside R2 on an empty .piDir. -/
theorem runsAgain (r1 r2 : Supervised) (fs left alone : FS) (empty : Empty fs)
    (earlier : (r1.run.exec handle fs).2 = left) (completes : r2.run.exec handle fs = (.ok (),alone))
    (clean : Clean r2 left) : ∃ after, r2.run.exec handle left = (.ok (),after) ∧
      (∀ m dir, DataDir r2 m dir → ∀ files files', Walk alone (under m dir) files →
        Walk after (under m dir) files' → ∀ ds, Dataset.init alone files = .ok ds →
          ∃ ds', Dataset.init after files' = .ok ds' ∧ (rows ds').Perm (rows ds)) ∧
      (∀ old own, Agreed r2 left alone old own → ∀ entries, Lists after entries →
        ∃ map, readStoreInfo after entries (fun _ => none) = .ok map ∧
          ∀ name pDC, own name = some pDC → ∃ other, map name = some other ∧
            other.tID = pDC.tID ∧ other.nmemb = pDC.nmemb) := by
  have start := emptyKept empty
  have remains : Remains r2 left := ⟨earlier ▸ runKept r1 fs start,clean⟩
  have ground : Kept alone := by
    have kept := runKept r2 fs start
    rwa [completes] at kept
  obtain ⟨after,again,both,seen⟩ := runBoth empty remains completes
  refine ⟨after,again,fun m dir data files files' walk walk' ds read => ?_,?_⟩
  · refine sameRows (fun rest some_ => ?_) walk walk' read
    exact sameData remains both seen ⟨dir,rest,data,some_,rfl⟩
  · exact fun old own agreed entries lists => readAgain remains ground both agreed entries lists

def oneNetwork (stg : NNStg) (nmemb : Int) : List ProgIntel.Call :=
  [.poke 1 [5,0,0,0,6,0,0,0],.piLoad ['x'] .i 1 1 false,.piNN ['m'] stg [['x']] [['y']],
    .piStore ['y'] .i nmemb 1]

def inputs (n : Nat) (script : List ProgIntel.Call) : Supervised where
  modPath := []
  n := n
  v := 0
  scripts := fun _ => script
  order := List.range n
  whole := .refl _

def targets (p : Steps Unit) (fs : FS) : List Path := (performed handle p fs).filterMap Op.target

def filesBelow (p : Steps Unit) (fs : FS) (dir : Path) : List Path :=
  (targets p fs).dedup.filter (fun path =>
    dir <+: path ∧ path ≠ dir ∧ (fileText ((p.exec handle fs).2 path)).isSome)

section
variable {p : Steps Unit} {fs : FS}

theorem targetsFrame {path : Path} (other : path ∉ targets p fs) : (p.exec handle fs).2 path = fs path := by
  induction p generalizing fs with
  | ret a => rfl
  | stop e => rfl
  | call op next ih =>
    have apart : op.target ≠ some path := fun same =>
      other (List.mem_filterMap.mpr ⟨op,List.mem_cons_self,same⟩)
    refine (ih _ fun later => other ?_).trans (handleFrame apart fs)
    obtain ⟨other,inside,same⟩ := List.mem_filterMap.mp later
    exact List.mem_filterMap.mpr ⟨other,List.mem_cons_of_mem op inside,same⟩

theorem walkFiles {dir : Path} (bare : ∀ rest, rest ≠ [] → fs (dir ++ rest) = none) :
    Walk (p.exec handle fs).2 dir (filesBelow p fs dir) := by
  refine ⟨(List.nodup_dedup _).filter _,fun path => ?_⟩
  rw [filesBelow,List.mem_filter,List.mem_dedup,decide_eq_true_eq]
  constructor
  · rintro ⟨_,⟨rest,rfl⟩,apart,there⟩
    exact ⟨⟨rest,fun none_ => apart (by rw [none_,List.append_nil]),rfl⟩,there⟩
  · rintro ⟨⟨rest,some_,rfl⟩,there⟩
    refine ⟨?_,⟨rest,rfl⟩,fun same => some_ (List.append_right_eq_self.mp same),there⟩
    by_contra other
    rw [targetsFrame other,bare rest some_] at there
    cases there

end

theorem onlyMainEmpty : Empty onlyMain :=
  ⟨rfl,fun _ some_ => if_neg fun same => some_ (List.cons.inj same).2⟩

def once : Supervised := inputs 1 (oneNetwork .one 1)

def onceLeft : FS := (once.run.exec handle onlyMain).2

theorem onceRuns : (once.run.exec handle onlyMain).1 = .ok () ∧
    (∀ path ∈ targets once.run onlyMain, (path.length = 2 → path = under ['m'] []) ∧
      (path.length ≤ 3 ∨ path = under ['m'] [piTrainDir,decimal 0])) ∧
    (onceLeft [piDir] = some .dir ∧ onceLeft (under ['m'] []) = some .dir) ∧
    (onceLeft (storePath ['m'] .one) ≠ some .dir ∧ onceLeft (storePath ['m'] .ens) ≠ some .dir) ∧
    infoText onceLeft ['m'] = some (storeRecord ['y'] .i 1) ∧
    (∀ s ∈ recordLines ['y'] (.i,1), parse s ≠ .ok (.type .none) ∧ parse s ≠ .ok (.nmemb (-1))) ∧
    (Dataset.init onceLeft (filesBelow once.run onlyMain (under ['m'] [piTrainDir]))).toOption.map
      (fun ds => (rows ds).length) = some 1 := by
  decide +kernel

theorem onceDone : once.run.exec handle onlyMain = (.ok (),onceLeft) := Prod.ext onceRuns.1 rfl

theorem onceChanged {path : Path} (some_ : path ≠ [piDir]) (there : onceLeft path ≠ none) :
    path ∈ targets once.run onlyMain := by
  by_contra other
  have same : onceLeft path = onlyMain path := targetsFrame other
  rw [same,onlyMain,if_neg some_] at there
  exact there rfl

theorem onceUses {k : Nat} {m : Text} {stg : NNStg} {loads : List Text} (uses : once.Uses k m stg loads) :
    k = 0 ∧ m = ['m'] ∧ stg = .one ∧ loads = [['x']] := by
  obtain ⟨below,stores,called⟩ := uses
  have zero : k < 1 := below
  have listed : ProgIntel.Call.piNN m stg loads stores ∈ oneNetwork .one 1 := called
  simp only [oneNetwork,List.mem_cons,List.not_mem_nil,or_false,reduceCtorEq,false_or,
    ProgIntel.Call.piNN.injEq] at listed
  exact ⟨by omega,listed.1,listed.2.1,listed.2.2.1⟩

theorem onceWritten : Written once ['m'] [piTrainDir,decimal 0] :=
  ⟨0,.one,[['x']],⟨by decide,[['y']],by simp [once,inputs,oneNetwork]⟩,[],List.mem_singleton_self _,rfl⟩

theorem onceClean : Clean once onceLeft := by
  intro k m stg loads _ uses
  obtain ⟨_,rfl,_,_⟩ := onceUses uses
  refine ⟨fun j others ens => ?_,fun j others _ _ i s more again l inside => ?_,fun j s others _ => ?_,
    fun rest below there => ?_⟩
  · obtain ⟨_,_,one,_⟩ := onceUses ens
    cases one
  · obtain ⟨_,_,_,rfl⟩ := onceUses again
    rw [List.mem_singleton.mp inside]
    decide
  · obtain ⟨one,ens⟩ := onceRuns.2.2.2.1
    cases s
    · exact one
    · exact ens
  · have some_ : onceLeft (under ['m'] rest) ≠ none := by
      intro none_
      rw [none_] at there
      cases there
    have long := belowLength below
    have apart : under ['m'] rest ≠ [piDir] := fun same => by cases same
    rcases (onceRuns.2.1 _ (onceChanged apart some_)).2 with short | same
    · simp only [under,List.length_cons] at short
      omega
    · rw [underInjective same]
      exact onceWritten

theorem onceListed {m : Text} (listed : Listed onceLeft m) : m = ['m'] := by
  have some_ : onceLeft [piDir,m] ≠ none := by
    rw [listed.2]
    exact nofun
  have same := (onceRuns.2.1 _ (onceChanged (fun same => by cases same) some_)).1 rfl
  exact (List.cons.inj (List.cons.inj same).2).1

theorem onceEntries : Lists onceLeft [['.'],['.','.'],['m']] := by
  intro name
  simp only [List.mem_cons,List.not_mem_nil,or_false]
  refine or_congr_right (or_congr_right ⟨?_,fun there => ?_⟩)
  · rintro rfl
    exact Option.isSome_iff_exists.mpr ⟨_,onceRuns.2.2.1.2⟩
  · have same := (onceRuns.2.1 _ (onceChanged (fun same => by cases same)
      (Option.isSome_iff_ne_none.mp there))).1 rfl
    exact (List.cons.inj (List.cons.inj same).2).1

theorem onceText : infoText onceLeft ['m'] = some (storeRecord ['y'] .i 1) := onceRuns.2.2.2.2.1

theorem onceLines : fgetsAll 254 (storeRecord ['y'] .i 1) = recordLines ['y'] (.i,1) := by
  have writable : Writable (['y'],(.i,1)) := ⟨by decide,by decide,nofun,by decide⟩
  have lines := fgetsAllRecord writable []
  rwa [List.append_nil,show fgetsAll 254 [] = [] by rw [fgetsAll],List.append_nil] at lines

theorem onceGiven : AllGiven onceLeft := by
  intro m text listed found
  cases onceListed listed
  cases onceText.symm.trans found
  rw [AllSet,onceLines]
  obtain ⟨_,_,_,_,_,parsed,_⟩ := onceRuns
  exact fun s inside unset_ => unset_.elim (parsed s inside).1 (parsed s inside).2

theorem onceRead : ∃ own, readStoreInfo onceLeft [['.'],['.','.'],['m']] (fun _ => none) = .ok own ∧
    own ['y'] = some ⟨.i,1,0,false,[]⟩ := by
  obtain ⟨_,_,⟨main,dir⟩,_⟩ := onceRuns
  have dots (map : StoreMap) {m : Text} (dot : m = ['.'] ∨ m = ['.','.']) : readModel onceLeft map m = .ok map := by
    rcases dot with rfl | rfl <;> rfl
  have model : readModel onceLeft (fun _ => none) ['m'] =
      readStoreFile (fun _ => none) (storeRecord ['y'] .i 1) := by
    rcases readModelCases onceLeft (fun _ => none) ['m'] with ⟨no,_⟩ | ⟨_,text,found,same⟩ | ⟨_,none_,_⟩
    · exact absurd ⟨⟨by decide,by decide⟩,dir⟩ no
    · cases onceText.symm.trans found
      exact same
    · exact absurd (onceText.symm.trans none_) nofun
  rw [readStoreInfo,if_pos main,List.foldlM_cons,dots _ (.inl rfl)]
  show ∃ own, (readModel onceLeft (fun _ => none) ['.','.'] >>= _) = _ ∧ _
  rw [dots _ (.inr rfl)]
  show ∃ own, (readModel onceLeft (fun _ => none) ['m'] >>= _) = _ ∧ _
  rw [model,readStoreFile,onceLines]
  exact ⟨_,rfl,by decide +kernel⟩

/- The same run twice. -/
theorem runsAgainOnce : ∃ after, once.run.exec handle onceLeft = (.ok (),after) ∧
    (∀ files, Walk after (under ['m'] [piTrainDir]) files →
      ∃ ds, Dataset.init after files = .ok ds ∧ (rows ds).length = 1) ∧
    ∀ entries, Lists after entries → ∃ map pDC, readStoreInfo after entries (fun _ => none) = .ok map ∧
      map ['y'] = some pDC ∧ pDC.tID = .i ∧ pDC.nmemb = 1 := by
  obtain ⟨after,again,data,stores⟩ := runsAgain once once onlyMain onceLeft onceLeft onlyMainEmpty rfl
    onceDone onceClean
  refine ⟨after,again,fun files walk => ?_,fun entries lists => ?_⟩
  · have alone : Walk onceLeft (under ['m'] [piTrainDir])
        (filesBelow once.run onlyMain (under ['m'] [piTrainDir])) :=
      walkFiles fun rest _ => if_neg fun same => by cases same
    have one : (Dataset.init onceLeft (filesBelow once.run onlyMain (under ['m'] [piTrainDir]))).toOption.map
        (fun ds => (rows ds).length) = some 1 := by
      obtain ⟨_,_,_,_,_,_,read⟩ := onceRuns
      exact read
    obtain ⟨ds,read,length⟩ := Option.map_eq_some_iff.mp one
    have init : Dataset.init onceLeft (filesBelow once.run onlyMain (under ['m'] [piTrainDir])) = .ok ds := by
      cases done : Dataset.init onceLeft (filesBelow once.run onlyMain (under ['m'] [piTrainDir])) with
      | error e => rw [done] at read; cases read
      | ok other => rw [done] at read; cases read; rfl
    have dir : DataDir once ['m'] [piTrainDir] :=
      ⟨0,.one,[['x']],⟨by decide,[['y']],by simp [once,inputs,oneNetwork]⟩,[],List.mem_singleton_self _,
        piTrainDir,.inl rfl,rfl⟩
    obtain ⟨ds',init',perm⟩ := data ['m'] [piTrainDir] dir _ files alone walk ds init
    exact ⟨ds',init',perm.length_eq.trans length⟩
  · obtain ⟨own,read,found⟩ := onceRead
    have agreed : Agreed once onceLeft onceLeft own own := by
      refine ⟨⟨_,onceEntries,read⟩,⟨_,onceEntries,read⟩,fun name pDC other here there => ?_,onceGiven,
        onceGiven,fun _ _ _ _ _ there => there⟩
      cases here.symm.trans there
      exact ⟨rfl,rfl⟩
    obtain ⟨map,done,has⟩ := stores own own agreed entries lists
    obtain ⟨pDC,there,type,nmemb⟩ := has _ _ found
    exact ⟨map,pDC,done,there,type,nmemb⟩

end Autonomizer.SecondRun
