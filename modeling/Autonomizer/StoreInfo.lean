import Mathlib
import Autonomizer.Collect
import Autonomizer.FileIO

/-! FileIO::readStoreInfo over what FileIO::prodWriteStoreInfo wrote. -/
namespace Autonomizer.StoreInfo
open Collect Data FileIO FileSystem Format PIInc Process

abbrev StoreMap := Text → Option DataContext

def contains (part : String) (s : Text) : Bool := decide (part.toList <:+: s)

/- s.substr(s.find(":") + 1); without a colon that is the whole of s. -/
def afterColon (s : Text) : Text :=
  if ':' ∈ s then (s.dropWhile (· ≠ ':')).tail else s

/- stoi, whose exception nobody catches. -/
def stoiOrThrow (s : Text) : Except Stop Int :=
  match stoi s with
  | some n => .ok n
  | none => .error (.assertion "stoi")

def castTypeID (n : Int) : Except Stop TypeID :=
  match TypeID.ofCode n with
  | some tID => .ok tID
  | none => .error .undefined

/- pDC is the name of the entry the pointer is at. -/
structure Reader where
  storeMap : StoreMap
  pDC : Option Text

def unset : DataContext := ⟨.none,-1,0,false,[]⟩

/- assert(pDC), and the entry it points at. -/
def Reader.entry (r : Reader) : Except Stop (Text × DataContext) :=
  match r.pDC with
  | none => .error (.assertion "pDC")
  | some name => match r.storeMap name with
    | some pDC => .ok (name,pDC)
    | none => .error .null

def readLine (r : Reader) (s : Text) : Except Stop Reader :=
  if contains "NAME:" s then
    if afterColon s = [] then .error .undefined
    else
      let stName := (afterColon s).dropLast
      .ok ⟨if (r.storeMap stName).isNone then Function.update r.storeMap stName (some unset)
        else r.storeMap,some stName⟩
  else if contains "TYPE:" s then do
    let tID ← castTypeID (← stoiOrThrow (afterColon s))
    let (name,pDC) ← r.entry
    if pDC.tID = .none then
      return ⟨Function.update r.storeMap name (some { pDC with tID }),r.pDC⟩
    else if pDC.tID ≠ tID then throw (.assertion "Type ID mismatch with existing store")
    else return r
  else if contains "NMEMB:" s then do
    let nmemb ← stoiOrThrow (afterColon s)
    let (name,pDC) ← r.entry
    if pDC.nmemb = -1 then
      return ⟨Function.update r.storeMap name (some { pDC with nmemb }),none⟩
    else if pDC.nmemb ≠ nmemb then throw (.assertion "nmemb mismatch with existing store")
    else return ⟨r.storeMap,none⟩
  else .error (.assertion "Unknown store information")

/- char buf[256]. -/
def readStoreFile (storeMap : StoreMap) (text : Text) : Except Stop StoreMap := do
  let r ← (fgetsAll 254 text).foldlM readLine ⟨storeMap,none⟩
  return r.storeMap

def readModel (fs : FS) (storeMap : StoreMap) (modelDirName : Text) : Except Stop StoreMap :=
  if modelDirName ≠ ['.'] ∧ modelDirName ≠ ['.','.'] ∧ fs [piDir,modelDirName] = some .dir then
    match fs (storePath modelDirName .one) with
    | some node => readStoreFile storeMap node.text
    | none => match fs (storePath modelDirName .ens) with
      | some node => readStoreFile storeMap node.text
      | none => .error (.failed "Cannot find store data information of model" [modelDirName])
  else .ok storeMap

/- entries is what readdir returns for .piDir, in its order. -/
def readStoreInfo (fs : FS) (entries : List Text) (storeMap : StoreMap) : Except Stop StoreMap :=
  if fs [piDir] = some .dir then entries.foldlM (readModel fs) storeMap
  else .error (.assertion
    "Program intelligence main directory should exist, do production first")

/- One call of prodWriteStoreInfo. -/
structure Call where
  modelName : Text
  storeName : Text
  tID : TypeID
  nmemb : Int
  stg : NNStg

def writeCalls (fs : FS) : List Call → Except Stop FS
  | [] => .ok fs
  | c :: rest =>
      match (prodWriteStoreInfo c.modelName c.storeName c.tID c.nmemb c.stg).exec handle fs with
      | (.ok _,fs) => writeCalls fs rest
      | (.error e,_) => .error e

theorem infixBefore {part before rest : Text} {c : Char} (last : part.getLast? = some c)
    (absent : c ∉ rest) : part <:+: before ++ rest ↔ part <:+: before := by
  constructor
  · intro inside
    rcases List.infix_append_iff.mp inside with left | right | ⟨l₁,l₂,rfl,suffix,start⟩
    · exact left
    · exact absurd (right.subset (List.mem_of_getLast? last)) absent
    · cases l₂ with
      | nil =>
        rw [List.append_nil]
        exact suffix.isInfix
      | cons d ds =>
        rw [List.getLast?_append_of_ne_nil _ (List.cons_ne_nil d ds)] at last
        exact absurd (start.subset (List.mem_of_getLast? last)) absent
  · exact fun inside => inside.trans (List.prefix_append before rest).isInfix

theorem containsKey {part key : String} (inside : part.toList <:+: key.toList) (value : Text) :
    contains part (line key value) = true := by
  rw [contains,decide_eq_true_eq,line,List.append_assoc]
  exact inside.trans (List.prefix_append _ _).isInfix

theorem containsOther {part key : String} {value : Text} (ends : part.toList.getLast? = some ':')
    (absent : ':' ∉ value) (apart : ¬ part.toList <:+: key.toList) :
    contains part (line key value) = false := by
  rw [contains,decide_eq_false_iff_not,line,List.append_assoc,infixBefore ends]
  · exact apart
  · simpa using absent

theorem afterKey {key : String} (before : Text) (shape : key.toList = before ++ [':'])
    (first : ':' ∉ before) (value : Text) : afterColon (line key value) = value ++ ['\n'] := by
  have skipped : ∀ c ∈ before, decide (c ≠ ':') = true := by
    intro c inside
    have other : c ≠ ':' := fun same => first (same ▸ inside)
    simpa using other
  have colon : ':' ∈ line key value := by simp [line,shape]
  rw [afterColon,if_pos colon,line,shape]
  simp only [List.append_assoc,List.singleton_append]
  rw [List.dropWhile_append_of_pos skipped]
  simp

theorem readNameLine (r : Reader) (name : Text) : readLine r (line "NN-STORE-DATA-NAME:" name) =
    .ok ⟨if (r.storeMap name).isNone then Function.update r.storeMap name (some unset)
      else r.storeMap,some name⟩ := by
  have after : afterColon (line "NN-STORE-DATA-NAME:" name) = name ++ ['\n'] :=
    afterKey "NN-STORE-DATA-NAME".toList (by decide) (by decide) name
  have some_ : name ++ ['\n'] ≠ [] := by simp
  rw [readLine,if_pos (containsKey (by decide) name),after,if_neg some_,List.dropLast_concat]

theorem noColon (n : Int) : ':' ∉ decimal n := decimalAvoids ⟨by decide,by decide⟩ n

theorem readTypeLine {r : Reader} {name : Text} {pDC : DataContext} (tID : TypeID)
    (found : r.entry = .ok (name,pDC)) : readLine r (line "NN-STORE-DATA-TYPE:" (decimal tID.code)) =
    if pDC.tID = .none then .ok ⟨Function.update r.storeMap name (some { pDC with tID }),r.pDC⟩
    else if pDC.tID ≠ tID then .error (.assertion "Type ID mismatch with existing store")
    else .ok r := by
  have after : afterColon (line "NN-STORE-DATA-TYPE:" (decimal tID.code)) =
      decimal tID.code ++ ['\n'] :=
    afterKey "NN-STORE-DATA-TYPE".toList (by decide) (by decide) _
  have noName : contains "NAME:" (line "NN-STORE-DATA-TYPE:" (decimal tID.code)) = false :=
    containsOther (by decide) (noColon _) (by decide)
  have range := codeRange tID
  have number : stoi (decimal tID.code ++ ['\n']) = some tID.code :=
    stoiDecimal ⟨by omega,by omega⟩ []
  rw [readLine,noName,if_neg Bool.false_ne_true,if_pos (containsKey (by decide) _),after]
  simp only [stoiOrThrow,number,castTypeID,ofCode,found,bind,Except.bind]
  split_ifs <;> rfl

theorem readNmembLine {r : Reader} {name : Text} {pDC : DataContext} {nmemb : Int}
    (range : -2^31 ≤ nmemb ∧ nmemb < 2^31) (found : r.entry = .ok (name,pDC)) :
    readLine r (line "NN-STORE-DATA-NMEMB:" (decimal nmemb)) =
    if pDC.nmemb = -1 then .ok ⟨Function.update r.storeMap name (some { pDC with nmemb }),none⟩
    else if pDC.nmemb ≠ nmemb then .error (.assertion "nmemb mismatch with existing store")
    else .ok ⟨r.storeMap,none⟩ := by
  have after : afterColon (line "NN-STORE-DATA-NMEMB:" (decimal nmemb)) = decimal nmemb ++ ['\n'] :=
    afterKey "NN-STORE-DATA-NMEMB".toList (by decide) (by decide) _
  have noName : contains "NAME:" (line "NN-STORE-DATA-NMEMB:" (decimal nmemb)) = false :=
    containsOther (by decide) (noColon _) (by decide)
  have noType : contains "TYPE:" (line "NN-STORE-DATA-NMEMB:" (decimal nmemb)) = false :=
    containsOther (by decide) (noColon _) (by decide)
  have number := stoiDecimal range []
  rw [readLine,noName,if_neg Bool.false_ne_true,noType,if_neg Bool.false_ne_true,
    if_pos (containsKey (by decide) _),after]
  simp only [stoiOrThrow,number,found,bind,Except.bind]
  split_ifs <;> rfl

abbrev Info := TypeID × Int

def stored (info : Info) : DataContext := ⟨info.1,info.2,0,false,[]⟩

def asMap (table : Text → Option Info) : StoreMap := fun name => (table name).map stored

/- No entry looks unset. -/
def Finished (table : Text → Option Info) : Prop :=
  ∀ name info, table name = some info → info.1 ≠ .none ∧ 0 ≤ info.2

theorem asMapUpdate (table : Text → Option Info) (name : Text) (info : Info) :
    Function.update (asMap table) name (some (stored info)) =
      asMap (Function.update table name (some info)) := by
  funext x
  by_cases same : x = name
  · subst same; simp [asMap]
  · simp [asMap,same]

def recordLines (name : Text) (info : Info) : List Text :=
  [line "NN-STORE-DATA-NAME:" name,line "NN-STORE-DATA-TYPE:" (decimal info.1.code),
    line "NN-STORE-DATA-NMEMB:" (decimal info.2)]

theorem readRecord {table : Text → Option Info} (finished : Finished table) (name : Text)
    {info : Info} (range : 0 ≤ info.2 ∧ info.2 < 2^31) :
    match add table name info with
    | some next => (recordLines name info).foldlM readLine ⟨asMap table,none⟩ =
        .ok ⟨asMap next,none⟩
    | none => ∃ e, (recordLines name info).foldlM readLine ⟨asMap table,none⟩ = .error e := by
  have wide : -2^31 ≤ info.2 ∧ info.2 < 2^31 := ⟨by omega,range.2⟩
  cases found : table name with
  | none =>
    have fresh : (asMap table name).isNone := by simp [asMap,found]
    simp only [add,found,recordLines,List.foldlM_cons,List.foldlM_nil,readNameLine,if_pos fresh,
      bind,Except.bind]
    have first : Reader.entry ⟨Function.update (asMap table) name (some unset),some name⟩ =
        .ok (name,unset) := by simp [Reader.entry]
    rw [readTypeLine info.1 first,if_pos (show unset.tID = TypeID.none from rfl)]
    simp only [Function.update_idem]
    have second : Reader.entry ⟨Function.update (asMap table) name
        (some { unset with tID := info.1 }),some name⟩ = .ok (name,{ unset with tID := info.1 }) := by
      simp [Reader.entry]
    rw [readNmembLine wide second,if_pos (show unset.nmemb = -1 from rfl)]
    simp only [Function.update_idem]
    exact congrArg (fun m => Except.ok (Reader.mk m none)) (asMapUpdate table name info)
  | some old =>
    obtain ⟨oldTyped,oldRange⟩ := finished name old found
    have known : (asMap table name).isNone = false := by simp [asMap,found]
    have entry : Reader.entry ⟨asMap table,some name⟩ = .ok (name,stored old) := by
      simp [Reader.entry,asMap,found]
    simp only [add,found,recordLines,List.foldlM_cons,List.foldlM_nil,readNameLine,known,
      Bool.false_eq_true,if_false,bind,Except.bind]
    rw [readTypeLine info.1 entry,if_neg (show (stored old).tID ≠ TypeID.none from oldTyped)]
    by_cases sameType : old.1 = info.1
    · have noMismatch : ¬ (stored old).tID ≠ info.1 := not_not.mpr sameType
      have set : (stored old).nmemb ≠ -1 := by simp only [stored]; omega
      rw [if_neg noMismatch]
      simp only
      rw [readNmembLine wide entry,if_neg set]
      by_cases sameNmemb : old.2 = info.2
      · have equal : old = info := Prod.ext sameType sameNmemb
        have noMismatch : ¬ (stored old).nmemb ≠ info.2 := not_not.mpr sameNmemb
        rw [if_neg noMismatch,if_pos equal]
        rfl
      · have other : old ≠ info := fun same => sameNmemb (same ▸ rfl)
        have mismatch : (stored old).nmemb ≠ info.2 := sameNmemb
        rw [if_pos mismatch,if_neg other]
        exact ⟨_,rfl⟩
    · have other : old ≠ info := fun same => sameType (same ▸ rfl)
      have mismatch : (stored old).tID ≠ info.1 := sameType
      rw [if_pos mismatch,if_neg other]
      exact ⟨_,rfl⟩

/- A record the round trip is about: its name fits the line buffer. -/
structure Writable (r : Text × Info) : Prop where
  oneLine : '\n' ∉ r.1
  short : r.1.length ≤ 235
  typed : r.2.1 ≠ .none
  range : 0 ≤ r.2.2 ∧ r.2.2 < 2^31

def recordsText (records : List (Text × Info)) : Text :=
  records.flatMap (fun r => storeRecord r.1 r.2.1 r.2.2)

theorem decimalShort {n : Int} (range : 0 ≤ n ∧ n < 2^31) : (decimal n).length ≤ 10 := by
  rw [decimal,if_neg (by omega)]
  exact (Nat.length_toDigits_le_iff (by omega) (by omega)).mpr (by omega)

theorem fgetsAllKey {key : String} {value rest : Text} (plain : '\n' ∉ key.toList)
    (oneLine : '\n' ∉ value) (fits : key.toList.length + value.length ≤ 254) :
    fgetsAll 254 (line key value ++ rest) = line key value :: fgetsAll 254 rest := by
  have whole : '\n' ∉ key.toList ++ value := by simp [plain,oneLine]
  have short : (key.toList ++ value).length ≤ 254 := by rw [List.length_append]; exact fits
  have cut := fgetsAllLine whole short rest
  simpa only [line,List.append_assoc,List.singleton_append] using cut

theorem noNewline (n : Int) : '\n' ∉ decimal n := decimalAvoids ⟨by decide,by decide⟩ n

theorem fgetsAllRecord {r : Text × Info} (writable : Writable r) (rest : Text) :
    fgetsAll 254 (storeRecord r.1 r.2.1 r.2.2 ++ rest) = recordLines r.1 r.2 ++ fgetsAll 254 rest := by
  have code := codeRange r.2.1
  have typeShort := decimalShort (n := r.2.1.code) ⟨code.1,by omega⟩
  have nmembShort := decimalShort writable.range
  have short := writable.short
  have nameLength : "NN-STORE-DATA-NAME:".toList.length = 19 := rfl
  have typeLength : "NN-STORE-DATA-TYPE:".toList.length = 19 := rfl
  have nmembLength : "NN-STORE-DATA-NMEMB:".toList.length = 20 := rfl
  simp only [storeRecord,recordLines,List.append_assoc]
  rw [fgetsAllKey (by decide) writable.oneLine (by omega),
    fgetsAllKey (by decide) (noNewline _) (by omega),
    fgetsAllKey (by decide) (noNewline _) (by omega)]
  rfl

theorem addFinished {table next : Text → Option Info} {r : Text × Info} (finished : Finished table)
    (writable : Writable r) (added : add table r.1 r.2 = some next) : Finished next := by
  intro name info found
  rcases (addSome added name info).mp found with old | ⟨_,same⟩
  · exact finished name info old
  · rw [← same]; exact ⟨writable.typed,writable.range.1⟩

theorem foldAppend {first second : List Text} {r : Reader} : (first ++ second).foldlM readLine r =
    (first.foldlM readLine r).bind (fun r => second.foldlM readLine r) := by
  rw [List.foldlM_append]; rfl

theorem readRecords {records : List (Text × Info)} (writable : ∀ r ∈ records, Writable r)
    {table : Text → Option Info} (finished : Finished table) :
    match collect table records with
    | some last => Finished last ∧ (fgetsAll 254 (recordsText records)).foldlM readLine
        ⟨asMap table,none⟩ = .ok ⟨asMap last,none⟩
    | none => ∃ e, (fgetsAll 254 (recordsText records)).foldlM readLine ⟨asMap table,none⟩ =
        .error e := by
  induction records generalizing table with
  | nil =>
    refine ⟨finished,?_⟩
    rw [recordsText,List.flatMap_nil,fgetsAll]
    rfl
  | cons r rest ih =>
    have good := writable r List.mem_cons_self
    have one := readRecord finished r.1 good.range
    have text : recordsText (r :: rest) = storeRecord r.1 r.2.1 r.2.2 ++ recordsText rest := by
      simp [recordsText]
    have split_ : collect table (r :: rest) = (add table r.1 r.2).bind (fun t => collect t rest) := rfl
    rw [text,fgetsAllRecord good,foldAppend,split_]
    cases added : add table r.1 r.2 with
    | none =>
      simp only [added] at one
      obtain ⟨e,failed⟩ := one
      exact ⟨e,by rw [failed]; rfl⟩
    | some next =>
      simp only [added] at one
      rw [one]
      exact ih (fun x inside => writable x (List.mem_cons_of_mem _ inside))
        (addFinished finished good added)

structure Holds (fs : FS) (m : Text) (records : List (Text × Info)) : Prop where
  dir : fs [piDir,m] = some .dir
  file : fs (storePath m .one) = some (.file (recordsText records)) ∨
    (fs (storePath m .one) = none ∧ fs (storePath m .ens) = some (.file (recordsText records)))

/- An entry of .piDir that readStoreInfo passes over. -/
def Skipped (fs : FS) (name : Text) : Prop :=
  name = ['.'] ∨ name = ['.','.'] ∨ fs [piDir,name] ≠ some .dir

theorem readModelSkipped {fs : FS} {name : Text} (skipped : Skipped fs name) (storeMap : StoreMap) :
    readModel fs storeMap name = .ok storeMap := by
  rw [readModel,if_neg]
  rintro ⟨notDot,notDots,dir⟩
  rcases skipped with h | h | h
  · exact notDot h
  · exact notDots h
  · exact h dir

theorem readModelHolds {fs : FS} {name : Text} {records : List (Text × Info)}
    (plain : name ≠ ['.'] ∧ name ≠ ['.','.']) (holds : Holds fs name records) (storeMap : StoreMap) :
    readModel fs storeMap name = readStoreFile storeMap (recordsText records) := by
  rw [readModel,if_pos ⟨plain.1,plain.2,holds.dir⟩]
  rcases holds.file with one | ⟨none,ens⟩
  · rw [one]; rfl
  · rw [none,ens]; rfl

def Described (fs : FS) (records : Text → List (Text × Info)) (entries : List Text) : Prop :=
  ∀ name ∈ entries, (Skipped fs name ∧ records name = []) ∨
    ((name ≠ ['.'] ∧ name ≠ ['.','.']) ∧ Holds fs name (records name) ∧
      ∀ r ∈ records name, Writable r)

theorem readEntries {fs : FS} {records : Text → List (Text × Info)} {entries : List Text}
    (described : Described fs records entries) {table : Text → Option Info}
    (finished : Finished table) :
    match collect table (entries.flatMap records) with
    | some last => entries.foldlM (readModel fs) (asMap table) = .ok (asMap last)
    | none => ∃ e, entries.foldlM (readModel fs) (asMap table) = .error e := by
  induction entries generalizing table with
  | nil => rfl
  | cons name rest ih =>
    have more := fun n inside => described n (List.mem_cons_of_mem name inside)
    rw [List.flatMap_cons,collectAppend,List.foldlM_cons]
    rcases described name List.mem_cons_self with ⟨skipped,none⟩ | ⟨plain,holds,writable⟩
    · rw [readModelSkipped skipped,none]
      exact ih more finished
    · rw [readModelHolds plain holds,readStoreFile]
      have file := readRecords writable finished
      cases collected : collect table (records name) with
      | none =>
        simp only [collected] at file
        obtain ⟨e,failed⟩ := file
        rw [failed]
        exact ⟨e,rfl⟩
      | some next =>
        simp only [collected] at file
        rw [file.2]
        exact ih more file.1

def Call.record (c : Call) : Text × Info := (c.storeName,(c.tID,c.nmemb))

theorem storePathInjective {m n : Text} {s t : NNStg} (same : storePath m s = storePath n t) :
    m = n ∧ s = t := by
  have ends : ".ONE.store".toList ≠ ".ENS.store".toList := by decide
  cases s <;> cases t <;>
    simp only [storePath,oneStore,ensStore,List.cons.injEq,true_and,and_true] at same
  · exact ⟨same.1,rfl⟩
  · obtain ⟨rfl,same⟩ := same
    exact absurd (List.append_cancel_left same) ends
  · obtain ⟨rfl,same⟩ := same
    exact absurd (List.append_cancel_left same).symm ends
  · exact ⟨same.1,rfl⟩

theorem storePathDeep (m n : Text) (s : NNStg) : [piDir,n] ≠ storePath m s := by
  cases s <;> simp [storePath]

/- A store file that holds records, or was missing at first and is still to be made. -/
def Tracks (missing : Prop) (fs : FS) (m : Text) (stg : NNStg) (records : List (Text × Info)) : Prop :=
  fs (storePath m stg) = some (.file (recordsText records)) ∨
    (fs (storePath m stg) = none ∧ records = [] ∧ missing)

theorem recordsSnoc (records : List (Text × Info)) (r : Text × Info) :
    recordsText (records ++ [r]) = recordsText records ++ storeRecord r.1 r.2.1 r.2.2 := by
  simp [recordsText]

theorem execStoreInfo {missing : Prop} {fs : FS} {c : Call} {records : List (Text × Info)}
    (dir : fs [piDir,c.modelName] = some .dir)
    (tracks : Tracks missing fs c.modelName c.stg records) :
    (prodWriteStoreInfo c.modelName c.storeName c.tID c.nmemb c.stg).exec handle fs =
      (.ok (),Function.update fs (storePath c.modelName c.stg)
        (some (.file (recordsText (records ++ [c.record]))))) := by
  have parent : (storePath c.modelName c.stg).dropLast = [piDir,c.modelName] := by
    cases c.stg <;> rfl
  rw [recordsSnoc]
  rcases tracks with found | ⟨absent,rfl,_⟩
  · simp [prodWriteStoreInfo,perform,Prog.exec,handle,dir,found,Call.record]
  · simp [prodWriteStoreInfo,perform,touch,Prog.exec,handle,make,lookupParent,parent,dir,absent,
      Call.record,recordsText]

def recordsOf (calls : List Call) (m : Text) : List (Text × Info) :=
  (calls.filter (fun c => c.modelName = m)).map Call.record

/- Model directories as production leaves them: each has one strategy, and its store
file is there and empty, or missing with a call to come. -/
structure ModelDirs (fs : FS) (models : List Text) (strategy : Text → NNStg) (calls : List Call) :
    Prop where
  main : fs [piDir] = some .dir
  dirs : ∀ name, fs [piDir,name] = some .dir ↔ name ∈ models
  plain : ∀ m ∈ models, m ≠ ['.'] ∧ m ≠ ['.','.']
  store : ∀ m ∈ models, fs (storePath m (strategy m)) = some (.file []) ∨
    (fs (storePath m (strategy m)) = none ∧ ∃ c ∈ calls, c.modelName = m)
  other : ∀ m ∈ models, ∀ stg, stg ≠ strategy m → fs (storePath m stg) = none

/- A call for a model directory with that model's strategy and a record in scope. -/
structure ValidCall (models : List Text) (strategy : Text → NNStg) (c : Call) : Prop where
  model : c.modelName ∈ models
  strategy : c.stg = strategy c.modelName
  writable : Writable c.record

/- The state after some calls: every model's file tracks the records so far. -/
structure Written (missing : Text → Prop) (fs : FS) (models : List Text) (strategy : Text → NNStg)
    (records : Text → List (Text × Info)) : Prop where
  main : fs [piDir] = some .dir
  dirs : ∀ name, fs [piDir,name] = some .dir ↔ name ∈ models
  tracks : ∀ m ∈ models, Tracks (missing m) fs m (strategy m) (records m)
  other : ∀ m ∈ models, ∀ stg, stg ≠ strategy m → fs (storePath m stg) = none

theorem writeCall {missing : Text → Prop} {fs : FS} {models : List Text}
    {strategy : Text → NNStg} {c : Call} {records : Text → List (Text × Info)}
    (written : Written missing fs models strategy records) (valid : ValidCall models strategy c) :
    ∃ next, (prodWriteStoreInfo c.modelName c.storeName c.tID c.nmemb c.stg).exec handle fs =
      (.ok (),next) ∧ (∀ name, next [piDir,name] = fs [piDir,name]) ∧ Written missing next models strategy
        (fun m => records m ++ if c.modelName = m then [c.record] else []) := by
  have tracks := written.tracks c.modelName valid.model
  rw [← valid.strategy] at tracks
  refine ⟨_,execStoreInfo ((written.dirs _).mpr valid.model) tracks,
    fun name => Function.update_of_ne (storePathDeep c.modelName name c.stg) _ _,?_⟩
  have apart : ∀ m ∈ models, ∀ stg, (m ≠ c.modelName ∨ stg ≠ c.stg) →
      storePath m stg ≠ storePath c.modelName c.stg := by
    intro m _ stg different same
    obtain ⟨h₁,h₂⟩ := storePathInjective same
    rcases different with h | h
    · exact h h₁
    · exact h h₂
  constructor
  · rw [Function.update_of_ne (by cases c.stg <;> simp [storePath])]
    exact written.main
  · intro name
    rw [Function.update_of_ne (storePathDeep c.modelName name c.stg)]
    exact written.dirs name
  · intro m member
    by_cases same : m = c.modelName
    · subst same
      refine .inl ?_
      rw [← valid.strategy,Function.update_self,if_pos rfl]
    · have kept := written.tracks m member
      simp only [Tracks,if_neg (Ne.symm same),List.append_nil] at kept ⊢
      rw [Function.update_of_ne (apart m member _ (.inl same))]
      exact kept
  · intro m member stg different
    by_cases same : m = c.modelName
    · subst same
      rw [← valid.strategy] at different
      rw [Function.update_of_ne (apart _ member stg (.inr different))]
      exact written.other _ member stg (valid.strategy ▸ different)
    · rw [Function.update_of_ne (apart m member stg (.inl same))]
      exact written.other m member stg different

theorem writeCallsWritten {missing : Text → Prop} {fs : FS} {models : List Text}
    {strategy : Text → NNStg} {calls : List Call} {records : Text → List (Text × Info)}
    (written : Written missing fs models strategy records)
    (valid : ∀ c ∈ calls, ValidCall models strategy c) :
    ∃ last, writeCalls fs calls = .ok last ∧ (∀ name, last [piDir,name] = fs [piDir,name]) ∧
      Written missing last models strategy (fun m => records m ++ recordsOf calls m) := by
  induction calls generalizing fs records with
  | nil =>
    refine ⟨fs,rfl,fun _ => rfl,?_⟩
    simpa [recordsOf] using written
  | cons c rest ih =>
    obtain ⟨next,executed,top,step⟩ := writeCall written (valid c List.mem_cons_self)
    obtain ⟨last,run,still,final⟩ := ih step (fun d inside => valid d (List.mem_cons_of_mem _ inside))
    refine ⟨last,?_,fun name => (still name).trans (top name),?_⟩
    · rw [writeCalls,executed]
      exact run
    · have same : (fun m => records m ++ recordsOf (c :: rest) m) =
          (fun m => (records m ++ if c.modelName = m then [c.record] else []) ++ recordsOf rest m) := by
        funext m
        by_cases h : c.modelName = m <;> simp [recordsOf,h]
      rw [same]
      exact final

theorem recordsNone {calls : List Call} {m : Text} (none : recordsOf calls m = []) :
    ∀ c ∈ calls, c.modelName ≠ m := by
  intro c member same
  have inside : c.record ∈ recordsOf calls m :=
    List.mem_map.mpr ⟨c,List.mem_filter.mpr ⟨member,by simpa using same⟩,rfl⟩
  rw [none] at inside
  cases inside

/- What readdir returns for .piDir: every entry, in any order, and the dot entries. -/
def Lists (fs : FS) (entries : List Text) : Prop :=
  ∀ name, name ∈ entries ↔ name = ['.'] ∨ name = ['.','.'] ∨ (fs [piDir,name]).isSome

theorem writtenDescribed {missing : Text → Prop} {fs : FS} {models : List Text}
    {strategy : Text → NNStg} {calls : List Call} (entries : List Text)
    (plain : ∀ m ∈ models, m ≠ ['.'] ∧ m ≠ ['.','.'])
    (valid : ∀ c ∈ calls, ValidCall models strategy c)
    (made : ∀ m, missing m → ∃ c ∈ calls, c.modelName = m)
    (written : Written missing fs models strategy (recordsOf calls)) :
    Described fs (recordsOf calls) entries := by
  intro name _
  by_cases member : name ∈ models
  · refine .inr ⟨plain name member,⟨(written.dirs name).mpr member,?_⟩,?_⟩
    · rcases written.tracks name member with found | ⟨_,none,absent⟩
      · cases stg : strategy name with
        | one => exact .inl (stg ▸ found)
        | ens =>
          have noOne := written.other name member .one (by rw [stg]; decide)
          exact .inr ⟨noOne,stg ▸ found⟩
      · obtain ⟨c,call,same⟩ := made name absent
        exact absurd same (recordsNone none c call)
    · intro r inside
      obtain ⟨c,chosen,rfl⟩ := List.mem_map.mp inside
      exact (valid c (List.mem_filter.mp chosen).1).writable
  · refine .inl ⟨.inr (.inr fun dir => member ((written.dirs name).mp dir)),?_⟩
    rw [recordsOf,List.map_eq_nil_iff,List.filter_eq_nil_iff]
    intro c inside same
    have equal : c.modelName = name := by simpa using same
    exact member (equal ▸ (valid c inside).model)

def Consistent (calls : List Call) : Prop :=
  ∀ c ∈ calls, ∀ d ∈ calls, c.storeName = d.storeName → c.tID = d.tID ∧ c.nmemb = d.nmemb

theorem listedRecords {missing : Text → Prop} {models : List Text} {strategy : Text → NNStg}
    {fs : FS} {calls : List Call} {entries : List Text}
    (valid : ∀ c ∈ calls, ValidCall models strategy c)
    (written : Written missing fs models strategy (recordsOf calls)) (lists : Lists fs entries)
    (name : Text) (info : Info) :
    (name,info) ∈ entries.flatMap (recordsOf calls) ↔ ∃ c ∈ calls, c.record = (name,info) := by
  rw [List.mem_flatMap]
  constructor
  · rintro ⟨m,_,inside⟩
    obtain ⟨c,chosen,same⟩ := List.mem_map.mp inside
    exact ⟨c,(List.mem_filter.mp chosen).1,same⟩
  · rintro ⟨c,member,same⟩
    have dir := (written.dirs c.modelName).mpr (valid c member).model
    refine ⟨c.modelName,(lists _).mpr (.inr (.inr (by rw [dir]; rfl))),?_⟩
    exact List.mem_map.mpr ⟨c,List.mem_filter.mpr ⟨member,by simp⟩,same⟩

theorem agreesConsistent {calls : List Call} {pairs : List (Text × Info)}
    (listed : ∀ name info, (name,info) ∈ pairs ↔ ∃ c ∈ calls, c.record = (name,info)) :
    Agrees (fun _ => none) pairs ↔ Consistent calls := by
  constructor
  · intro agrees c first d second same
    have left := (listed c.storeName (c.tID,c.nmemb)).mpr ⟨c,first,rfl⟩
    have right := (listed c.storeName (d.tID,d.nmemb)).mpr ⟨d,second,by rw [same]; rfl⟩
    exact Prod.ext_iff.mp (agrees.1 _ _ _ left right)
  · intro consistent
    refine ⟨?_,fun _ _ _ h => by cases h⟩
    intro name v w left right
    obtain ⟨c,first,one⟩ := (listed name v).mp left
    obtain ⟨d,second,two⟩ := (listed name w).mp right
    obtain ⟨rfl,rfl⟩ := Prod.mk.inj one
    obtain ⟨same,rfl⟩ := Prod.mk.inj two
    obtain ⟨h₁,h₂⟩ := consistent c first d second same.symm
    rw [h₁,h₂]

theorem tableRecords {calls : List Call} {pairs : List (Text × Info)}
    (listed : ∀ name info, (name,info) ∈ pairs ↔ ∃ c ∈ calls, c.record = (name,info))
    {table : Text → Option Info} (collected : collect (fun _ => none) pairs = some table)
    (name : Text) (pDC : DataContext) : asMap table name = some pDC ↔
      ∃ c ∈ calls, c.storeName = name ∧ pDC = stored (c.tID,c.nmemb) := by
  have entry : ∀ info, table name = some info ↔ ∃ c ∈ calls, c.record = (name,info) := by
    intro info
    rw [collectSome collected,← listed]
    simp
  constructor
  · intro found
    obtain ⟨info,there,rfl⟩ := Option.map_eq_some_iff.mp found
    obtain ⟨c,member,same⟩ := (entry info).mp there
    obtain ⟨rfl,rfl⟩ := Prod.mk.inj same
    exact ⟨c,member,rfl,rfl⟩
  · rintro ⟨c,member,rfl,rfl⟩
    exact Option.map_eq_some_iff.mpr ⟨_,(entry _).mpr ⟨c,member,rfl⟩,rfl⟩

theorem dirsWritten {fs : FS} {models : List Text} {strategy : Text → NNStg} {calls : List Call}
    (dirs : ModelDirs fs models strategy calls) :
    Written (fun m => m ∈ models ∧ fs (storePath m (strategy m)) = none) fs models strategy (fun _ => []) := by
  refine ⟨dirs.main,dirs.dirs,fun m member => ?_,dirs.other⟩
  rcases dirs.store m member with found | ⟨absent,_⟩
  · exact .inl found
  · exact .inr ⟨absent,rfl,member,absent⟩

/- Any calls for any model directories: reading back succeeds exactly when the records
of each store name agree, and then yields exactly the stores written. -/
theorem storeInfoRoundTrip {fs : FS} {models : List Text} {strategy : Text → NNStg}
    {calls : List Call} (dirs : ModelDirs fs models strategy calls)
    (valid : ∀ c ∈ calls, ValidCall models strategy c) :
    ∃ last, writeCalls fs calls = .ok last ∧ ∀ entries, Lists last entries →
      ((∃ map, readStoreInfo last entries (fun _ => none) = .ok map) ↔ Consistent calls) ∧
      ∀ map, readStoreInfo last entries (fun _ => none) = .ok map → ∀ name pDC,
        map name = some pDC ↔ ∃ c ∈ calls, c.storeName = name ∧ pDC = stored (c.tID,c.nmemb) := by
  let missing : Text → Prop := fun m => m ∈ models ∧ fs (storePath m (strategy m)) = none
  have made : ∀ m, missing m → ∃ c ∈ calls, c.modelName = m := by
    rintro m ⟨member,absent⟩
    rcases dirs.store m member with found | ⟨_,call⟩
    · rw [absent] at found; cases found
    · exact call
  obtain ⟨last,run,_,written⟩ := writeCallsWritten (dirsWritten dirs) valid
  simp only [List.nil_append] at written
  refine ⟨last,run,fun entries lists => ?_⟩
  have described := writtenDescribed entries dirs.plain valid made written
  have finished : Finished (fun _ => none) := fun _ _ h => by cases h
  have read := readEntries described finished
  have listed := listedRecords valid written lists
  have functional : (collect (fun _ => none) (entries.flatMap (recordsOf calls))).isSome ↔
      Consistent calls := by
    rw [collectIff]
    exact agreesConsistent listed
  have opened : readStoreInfo last entries (fun _ => none) =
      entries.foldlM (readModel last) (asMap (fun _ => none)) := by
    rw [readStoreInfo,if_pos written.main]
    rfl
  rw [opened,← functional]
  cases collected : collect (fun _ => none) (entries.flatMap (recordsOf calls)) with
  | none =>
    simp only [collected] at read
    obtain ⟨e,failed⟩ := read
    rw [failed]
    refine ⟨?_,nofun⟩
    constructor
    · rintro ⟨_,h⟩; cases h
    · intro h; cases h
  | some table =>
    simp only [collected] at read
    rw [read]
    refine ⟨⟨fun _ => rfl,fun _ => ⟨_,rfl⟩⟩,?_⟩
    rintro _ ⟨⟩ name pDC
    exact tableRecords listed collected name pDC

def twoModels : FS := fun path =>
  if path = [piDir] ∨ path = [piDir,['m']] ∨ path = [piDir,['n']] then some .dir
  else if path = storePath ['m'] .one then some (.file []) else none

def strategyOf (m : Text) : NNStg := if m = ['n'] then .ens else .one

def sharedCalls : List Call :=
  [⟨['m'],"TYPE:NAME:".toList,.i,4,.one⟩,⟨['m'],['y'],.d,2,.one⟩,⟨['n'],"TYPE:NAME:".toList,.i,4,.ens⟩,
    ⟨['m'],"TYPE:NAME:".toList,.i,4,.one⟩]

theorem twoDirs : ModelDirs twoModels [['m'],['n']] strategyOf sharedCalls where
  main := rfl
  dirs name := by
    have deep := storePathDeep ['m'] name .one
    simp only [twoModels,deep,List.mem_pair]
    by_cases first : name = ['m'] <;> simp [first]
  plain m member := by
    rcases List.mem_pair.mp member with rfl | rfl <;> decide
  store m member := by
    rcases List.mem_pair.mp member with rfl | rfl
    · exact .inl rfl
    · exact .inr ⟨rfl,⟨['n'],"TYPE:NAME:".toList,.i,4,.ens⟩,by simp [sharedCalls],rfl⟩
  other m member stg different := by
    rcases List.mem_pair.mp member with rfl | rfl <;> cases stg
    · exact absurd rfl different
    · rfl
    · rfl
    · exact absurd rfl different

theorem sharedValid : ∀ c ∈ sharedCalls, ValidCall [['m'],['n']] strategyOf c := by
  have keyword : Writable ("TYPE:NAME:".toList,(.i,4)) := ⟨by decide,by decide,by decide,by decide⟩
  intro c member
  simp only [sharedCalls,List.mem_cons,List.not_mem_nil,or_false] at member
  rcases member with rfl | rfl | rfl | rfl
  · exact ⟨by decide,rfl,keyword⟩
  · exact ⟨by decide,rfl,⟨by decide,by decide,by decide,by decide⟩⟩
  · exact ⟨by decide,rfl,keyword⟩
  · exact ⟨by decide,rfl,keyword⟩

theorem storeInfoRoundTripShared : ∃ last map, writeCalls twoModels sharedCalls = .ok last ∧
    readStoreInfo last [['.'],['n'],['m'],['.','.']] (fun _ => none) = .ok map ∧
    map "TYPE:NAME:".toList = some (stored (.i,4)) ∧ map ['y'] = some (stored (.d,2)) := by
  obtain ⟨last,run,reads⟩ := storeInfoRoundTrip twoDirs sharedValid
  obtain ⟨same,again,top,_⟩ := writeCallsWritten (dirsWritten twoDirs) sharedValid
  cases run.symm.trans again
  have lists : Lists last [['.'],['n'],['m'],['.','.']] := by
    intro name
    have deep := storePathDeep ['m'] name .one
    rw [top name]
    simp [twoModels,deep]
    tauto
  obtain ⟨succeeds,exact_⟩ := reads _ lists
  have consistent : Consistent sharedCalls := by
    intro c first d second same
    simp only [sharedCalls,List.mem_cons,List.not_mem_nil,or_false] at first second
    rcases first with rfl | rfl | rfl | rfl <;> rcases second with rfl | rfl | rfl | rfl <;>
      first | exact ⟨rfl,rfl⟩ | exact absurd same (by decide)
  obtain ⟨map,read⟩ := succeeds.mpr consistent
  refine ⟨last,map,run,read,(exact_ map read _ _).mpr ⟨_,List.mem_cons_self,rfl,rfl⟩,
    (exact_ map read _ _).mpr ⟨_,List.mem_cons_of_mem _ List.mem_cons_self,rfl,rfl⟩⟩

end Autonomizer.StoreInfo
