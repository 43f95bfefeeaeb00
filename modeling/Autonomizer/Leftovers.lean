import Mathlib
import Autonomizer.ModelDir
import Autonomizer.StoreInfo
import Autonomizer.TwoStates

/-! A supervised production run on what an earlier run has left in .piDir, beside the
same run on an empty .piDir. -/
namespace Autonomizer.Leftovers
open Data FileIO FileSystem Footprint Format PIInc PIModelManager Process ProgIntel PyInterface
open ModelDir (numberApart)
open SingleModel StoreInfo TwoStates

/- A run over n training and v validation inputs whose children are taken one after
another. -/
structure Supervised where
  modPath : Text
  n : Nat
  v : Nat
  scripts : Nat → List ProgIntel.Call
  order : List Nat
  whole : order.Perm (List.range (n + v))

namespace Supervised

def children (r : Supervised) : List Nat → Steps Unit
  | [] => pure ()
  | k :: rest => do
      production r.modPath r.n r.v r.scripts k
      r.children rest

def run (r : Supervised) : Steps Unit := do
  prodInit
  r.children r.order

def Uses (r : Supervised) (k : Nat) (m : Text) (stg : NNStg) (loads : List Text) : Prop :=
  k < r.n + r.v ∧ ∃ stores, .piNN m stg loads stores ∈ r.scripts k

end Supervised

def under (m : Text) (rest : Path) : Path := piDir :: m :: rest

/- Where a network has its data directories, below the directory of its model. -/
def subs : NNStg → List Text → List Path
  | .one,_ => [[]]
  | .ens,loads => loads.map (fun l => [l])

def DataDir (r : Supervised) (m : Text) (rest : Path) : Prop :=
  ∃ k stg loads, r.Uses k m stg loads ∧ ∃ sub ∈ subs stg loads, ∃ dir,
    (dir = piTrainDir ∨ dir = piValidDir) ∧ rest = sub ++ [dir]

/- A data file that a child of the run opens with "w". -/
def Written (r : Supervised) (m : Text) (rest : Path) : Prop :=
  ∃ k stg loads, r.Uses k m stg loads ∧ ∃ sub ∈ subs stg loads,
    rest = sub ++ [(placeOf r.n k).1,decimal (placeOf r.n k).2]

def Below (r : Supervised) (m : Text) (rest : Path) : Prop :=
  ∃ dir more, DataDir r m dir ∧ more ≠ [] ∧ rest = dir ++ more

/- What stands in the directory of a single model, and the store file of an ensemble. -/
def entries (m : Text) : List Text := [piTrainDir,piValidDir,oneStore m,ensStore m]

/- What an earlier run may have left of a model that this run uses. An ensemble has its load
directories. Where there is no store file of a single model, genModelTemplate takes the
model for an ensemble. A data file is left only where this run opens one with "w". -/
structure Reusable (r : Supervised) (left : FS) (m : Text) : Prop where
  loadDirs : ∀ k loads, r.Uses k m .ens loads → ∀ l ∈ loads, left (under m [l]) = some .dir
  names : ∀ k loads, r.Uses k m .one loads →
    left (storePath m .one) = none ∨ (∃ j others, r.Uses j m .ens others) →
    ∀ j stg others, r.Uses j m stg others → ∀ l ∈ others, l ∉ entries m
  storeFile : ∀ k stg loads, r.Uses k m stg loads → left (storePath m stg) ≠ some .dir
  data : ∀ rest, Below r m rest → (fileText (left (under m rest))).isSome → Written r m rest

def Clean (r : Supervised) (left : FS) : Prop :=
  ∀ k m stg loads, left (under m []) ≠ none → r.Uses k m stg loads → Reusable r left m

/- How deep a run makes its directories, and that no file has the name of a data directory. -/
structure Shaped (fs : FS) : Prop where
  dir : ∀ m rest, fs (under m rest) = some .dir → rest.length ≤ 1 ∨ ∃ l d,
    rest = [l,d] ∧ (d = piTrainDir ∨ d = piValidDir)
  file : ∀ m rest text, fs (under m rest) = some (.file text) → ∃ top name,
    rest = top ++ [name] ∧ name ≠ piTrainDir ∧ name ≠ piValidDir

structure Base (r : Supervised) (left : FS) (m : Text) : Prop extends Reusable r left m where
  root : left (under m []) = some .dir
  noFile : ∀ dir, DataDir r m dir → ∀ text, left (under m dir) ≠ some (.file text)
  noDir : ∀ rest, Written r m rest → left (under m rest) ≠ some .dir

/- The store files that the run alone makes. Where its single store file has no record, the
model has no load directories, and so no record of an ensemble. -/
structure Solo (r : Supervised) (left : FS) (m : Text) (alone : FS) : Prop where
  used : fileText (alone (storePath m .one)) ≠ none → ∃ k loads, r.Uses k m .one loads
  single : alone (storePath m .one) = some .dir → left (storePath m .one) ≠ none
  bare : fileText (alone (storePath m .one)) = some [] → ∀ l, alone (under m [l]) = some .dir →
    l = piTrainDir ∨ l = piValidDir
  unread : fileText (alone (storePath m .one)) = some [] → contents alone (storePath m .ens) = []

/- A model of both runs: alone is what the run has made by itself, again what it has made
on top of left. The data files are those of the run alone where it has written them and
what is left where it has not. -/
structure Core (r : Supervised) (left : FS) (m : Text) (alone again : FS) : Prop where
  noFile : ∀ dir, DataDir r m dir → ∀ text, again (under m dir) ≠ some (.file text)
  noDir : ∀ rest, Written r m rest → again (under m rest) ≠ some .dir
  storeFile : ∀ k stg loads, r.Uses k m stg loads → again (storePath m stg) ≠ some .dir
  data : ∀ rest, Below r m rest → fileText (again (under m rest)) = fileText (alone (under m rest)) ∨
    (fileText (alone (under m rest)) = none ∧
      fileText (again (under m rest)) = fileText (left (under m rest)))
  store : ∀ s, contents again (storePath m s) =
    contents left (storePath m s) ++ contents alone (storePath m s)
  present : again (storePath m .one) ≠ none →
    left (storePath m .one) ≠ none ∨ alone (storePath m .one) ≠ none
  solo : Solo r left m alone

section
variable {r : Supervised} {left alone again : FS} {m : Text} {stg : NNStg}

theorem contentsApart {fs : FS} {path other : Path} (apart : path ≠ other) (node : Option Node) :
    contents (Function.update fs other node) path = contents fs path := by
  rw [contents,Function.update_of_ne apart]
  rfl

theorem underInjective {rest other : Path} (same : under m rest = under m other) : rest = other :=
  (List.cons.inj (List.cons.inj same).2).2

theorem storeUnder (m : Text) (stg : NNStg) :
    ∃ name, storePath m stg = under m [name] ∧ name.getLast? = some 'e' ∧ name ∈ entries m := by
  cases stg with
  | one => exact ⟨oneStore m,rfl,by simp [oneStore],by simp [entries]⟩
  | ens => exact ⟨ensStore m,rfl,by simp [ensStore],by simp [entries]⟩

theorem dataEntry {d : Text} (named : d = piTrainDir ∨ d = piValidDir) (m : Text) : d ∈ entries m := by
  rcases named with rfl | rfl <;> simp [entries]

theorem placeNamed (n k : Nat) : (placeOf n k).1 = piTrainDir ∨ (placeOf n k).1 = piValidDir := by
  unfold placeOf
  split
  · exact .inl rfl
  · exact .inr rfl

theorem dataDirShape {rest : Path} (data : DataDir r m rest) :
    ∃ sub dir, rest = sub ++ [dir] ∧ (dir = piTrainDir ∨ dir = piValidDir) ∧
      ((sub = [] ∧ ∃ k loads, r.Uses k m .one loads) ∨
        ∃ l, sub = [l] ∧ ∃ k loads, r.Uses k m .ens loads ∧ l ∈ loads) := by
  obtain ⟨k,stg,loads,uses,sub,inside,dir,named,rfl⟩ := data
  refine ⟨sub,dir,rfl,named,?_⟩
  cases stg with
  | one => exact .inl ⟨List.mem_singleton.mp inside,k,loads,uses⟩
  | ens =>
    obtain ⟨l,listed,rfl⟩ := List.mem_map.mp inside
    exact .inr ⟨l,rfl,k,loads,uses,listed⟩

theorem writtenBelow {rest : Path} (written : Written r m rest) : Below r m rest := by
  obtain ⟨k,stg,loads,uses,sub,inside,rfl⟩ := written
  exact ⟨sub ++ [(placeOf r.n k).1],[decimal (placeOf r.n k).2],
    ⟨k,stg,loads,uses,sub,inside,_,placeNamed r.n k,rfl⟩,by simp,by simp⟩

theorem belowLength {rest : Path} (below : Below r m rest) : 2 ≤ rest.length := by
  obtain ⟨dir,more,⟨k,other,loads,uses,sub,inside,name,named,rfl⟩,some_,rfl⟩ := below
  have := List.length_pos_of_ne_nil some_
  simp only [List.length_append,List.length_singleton]
  omega

theorem belowStore {rest : Path} (below : Below r m rest) (stg : NNStg) :
    under m rest ≠ storePath m stg := by
  obtain ⟨name,same,_⟩ := storeUnder m stg
  rw [same]
  intro equal
  have length := belowLength below
  rw [underInjective equal] at length
  simp at length

theorem dataDirStore {rest : Path} (data : DataDir r m rest) (stg : NNStg) :
    under m rest ≠ storePath m stg := by
  obtain ⟨name,same,ends,_⟩ := storeUnder m stg
  obtain ⟨sub,dir,rfl,named,shape⟩ := dataDirShape data
  rw [same]
  intro equal
  have lists := underInjective equal
  rcases shape with ⟨rfl,_⟩ | ⟨l,rfl,_⟩
  · cases (List.cons.inj lists).1
    rcases named with rfl | rfl <;> exact absurd ends (by decide)
  · exact absurd (congrArg List.length lists) (by simp)

theorem plainLoad (reusable : Reusable r left m) {k : Nat} {loads : List Text}
    (uses : r.Uses k m stg loads) {l : Text} (listed : l ∈ loads)
    (taken : stg = .one → left (storePath m .one) = none ∨ ∃ j others, r.Uses j m .ens others)
    {j : Nat} {others : List Text} (single : r.Uses j m .one others) : l ∉ entries m := by
  cases stg with
  | one => exact reusable.names k loads uses (taken rfl) k .one loads uses l listed
  | ens => exact reusable.names j others single (.inr ⟨k,loads,uses⟩) k .ens loads uses l listed

theorem belowNoDir (reusable : Reusable r left m) {rest : Path} (below : Below r m rest) :
    ¬ DataDir r m rest := by
  intro data
  obtain ⟨sub,dir,rfl,named,shape⟩ := dataDirShape data
  obtain ⟨top,more,inner,some_,same⟩ := below
  obtain ⟨sub',dir',rfl,named',shape'⟩ := dataDirShape inner
  have longer := List.length_pos_of_ne_nil some_
  have lengths := congrArg List.length same
  simp only [List.length_append,List.length_singleton] at lengths
  rcases shape with ⟨rfl,_⟩ | ⟨l,rfl,k,loads,uses,listed⟩
  · simp only [List.length_nil] at lengths
    omega
  · rcases shape' with ⟨rfl,j,others,single⟩ | ⟨l',rfl,_⟩
    · have equal : l = dir' := (List.cons.inj same).1
      exact plainLoad reusable uses listed nofun single (equal ▸ dataEntry named' m)
    · simp only [List.length_singleton] at lengths
      omega

theorem baseOf (shaped : Shaped left) (some_ : left (under m []) ≠ none) (reusable : Reusable r left m) :
    Base r left m where
  toReusable := reusable
  root := by
    cases found : left (under m []) with
    | none => exact absurd found some_
    | some node =>
      cases node with
      | dir => rfl
      | file text =>
        obtain ⟨top,name,same,_⟩ := shaped.file m [] text found
        exact absurd (congrArg List.length same) (by simp)
  noFile dir data text found := by
    obtain ⟨sub,d,rfl,named,_⟩ := dataDirShape data
    obtain ⟨top,name,same,noTrain,noValid⟩ := shaped.file m _ text found
    have last : d = name := by simpa using congrArg List.getLast? same
    subst last
    rcases named with train | valid
    · exact noTrain train
    · exact noValid valid
  noDir rest written found := by
    have long := belowLength (writtenBelow written)
    obtain ⟨k,stg,loads,uses,sub,inside,rfl⟩ := written
    rcases shaped.dir m _ found with short | ⟨l,d,same,named⟩
    · omega
    · have last : decimal (placeOf r.n k).2 = d := by simpa using congrArg List.getLast? same
      exact numberApart named _ last

theorem soloFile (solo : Solo r left m alone) {op : Op} {path : Path} (file : op.file = some path)
    (store : ∀ s, path ≠ storePath m s) : Solo r left m (handle op alone).2 := by
  have kept (s : NNStg) : (handle op alone).2 (storePath m s) = alone (storePath m s) := by
    refine handleFrame (fun target => store s ?_) alone
    exact Option.some.inj ((fileTarget file).symm.trans target)
  refine ⟨?_,?_,fun empty l dir => ?_,?_⟩
  · rw [kept]
    exact solo.used
  · rw [kept]
    exact solo.single
  · rw [kept] at empty
    rcases handleKinds op alone (under m [l]) with same | ⟨rfl,_⟩ | ⟨_,_,text,made⟩
    · exact solo.bare empty l (same ▸ dir)
    · cases file
    · rw [made] at dir
      cases dir
  · rw [kept,contents,kept]
    exact solo.unread

theorem mkdirText (path other : Path) (fs : FS) :
    fileText ((handle (.mkdir path) fs).2 other) = fileText (fs other) := handleFile nofun

theorem soloMkdir (solo : Solo r left m alone) {path : Path}
    (data : ∀ l, path = under m [l] → l = piTrainDir ∨ l = piValidDir ∨
      fileText (alone (storePath m .one)) ≠ some [])
    (single : path = storePath m .one → left (storePath m .one) ≠ none) :
    Solo r left m (handle (.mkdir path) alone).2 := by
  have frame {other : Path} (apart : path ≠ other) : (handle (.mkdir path) alone).2 other = alone other := by
    refine handleFrame (fun same => apart ?_) alone
    exact Option.some.inj same
  refine ⟨?_,fun dir => ?_,fun empty l dir => ?_,?_⟩
  · rw [mkdirText]
    exact solo.used
  · by_cases mine : path = storePath m .one
    · exact single mine
    · rw [frame mine] at dir
      exact solo.single dir
  · rw [mkdirText] at empty
    by_cases mine : path = under m [l]
    · rcases data l mine with train | valid | other
      · exact .inl train
      · exact .inr valid
      · exact absurd empty other
    · rw [frame mine] at dir
      exact solo.bare empty l dir
  · rw [mkdirText,contents,mkdirText]
    exact solo.unread

theorem keptPresent {fs next : FS} (grows : Grows fs next) {path : Path} (there : fs path ≠ none) :
    next path ≠ none := by
  cases found : fs path with
  | none => exact absurd found there
  | some node =>
    cases node with
    | dir =>
      rw [grows.dir path found]
      exact nofun
    | file text =>
      obtain ⟨new,after⟩ := grows.file path text found
      rw [after]
      exact nofun

theorem storeKept {op : Op} (store : ∀ s, op.file ≠ some (storePath m s))
    (dir : ∀ rest, op = .mkdir (under m rest) → again (under m rest) = none →
      ¬ Written r m rest ∧ ∀ s, under m rest ≠ storePath m s) (stg : NNStg) :
    (handle op again).2 (storePath m stg) = again (storePath m stg) := by
  obtain ⟨name,same,_⟩ := storeUnder m stg
  rcases handleKinds op again (storePath m stg) with kept | ⟨made,absent,_⟩ | ⟨touched,_,_⟩
  · exact kept
  · rw [same] at made absent
    exact absurd same.symm ((dir _ made absent).2 stg)
  · exact absurd touched (store stg)

theorem coreAlone (core : Core r left m alone again) {op : Op}
    (file : ∀ rest, op.file = some (under m rest) → ¬ Below r m rest)
    (store : ∀ s, op.file ≠ some (storePath m s)) (solo : Solo r left m (handle op alone).2) :
    Core r left m (handle op alone).2 again where
  noFile := core.noFile
  noDir := core.noDir
  storeFile := core.storeFile
  data rest below := by
    rw [handleFile (fun same => file rest same below)]
    exact core.data rest below
  store s := by
    rw [core.store,contents,contents,contents,handleFile (store s)]
  present there := by
    rcases core.present there with old | made
    · exact .inl old
    · exact .inr (keptPresent (handleGrows op alone) made)
  solo := solo

theorem coreAgain (core : Core r left m alone again) {op : Op}
    (file : ∀ rest, op.file = some (under m rest) → ¬ Below r m rest ∧ ¬ DataDir r m rest)
    (store : ∀ s, op.file ≠ some (storePath m s))
    (dir : ∀ rest, op = .mkdir (under m rest) → again (under m rest) = none →
      ¬ Written r m rest ∧ ∀ s, under m rest ≠ storePath m s) :
    Core r left m alone (handle op again).2 where
  noFile path data text := by
    rcases handleKinds op again (under m path) with same | ⟨_,_,made⟩ | ⟨touched,_,_⟩
    · rw [same]
      exact core.noFile path data text
    · rw [made]
      exact nofun
    · exact absurd data (file path touched).2
  noDir path written := by
    rcases handleKinds op again (under m path) with same | ⟨made,absent,_⟩ | ⟨_,_,text,touched⟩
    · rw [same]
      exact core.noDir path written
    · exact absurd written (dir path made absent).1
    · rw [touched]
      exact nofun
  storeFile k stg loads uses := by
    rw [storeKept store dir]
    exact core.storeFile k stg loads uses
  data rest below := by
    rw [handleFile (fun same => (file rest same).1 below)]
    exact core.data rest below
  store s := by
    rw [contents,handleFile (store s)]
    exact core.store s
  present there := by
    rw [storeKept store dir] at there
    exact core.present there
  solo := core.solo

theorem coreData (reusable : Reusable r left m) (core : Core r left m alone again)
    {rest : Path} (below : Below r m rest) (text : Text) :
    Core r left m (Function.update alone (under m rest) (some (.file text)))
      (Function.update again (under m rest) (some (.file text))) := by
  have apart {other : Path} (different : other ≠ rest) : under m other ≠ under m rest :=
    fun same => different (underInjective same)
  have stores (s : NNStg) : storePath m s ≠ under m rest := (belowStore below s).symm
  have long := belowLength below
  constructor
  · intro dir data
    rw [Function.update_of_ne (apart (fun same => belowNoDir reusable below (same ▸ data)))]
    exact core.noFile dir data
  · intro other written
    by_cases same : other = rest
    · subst same
      rw [Function.update_self]
      exact nofun
    · rw [Function.update_of_ne (apart same)]
      exact core.noDir other written
  · intro k stg loads uses
    rw [Function.update_of_ne (stores stg)]
    exact core.storeFile k stg loads uses
  · intro other inside
    by_cases same : other = rest
    · subst same
      rw [Function.update_self,Function.update_self]
      exact .inl rfl
    · rw [Function.update_of_ne (apart same),Function.update_of_ne (apart same)]
      exact core.data other inside
  · intro s
    rw [contentsApart (stores s),contentsApart (stores s)]
    exact core.store s
  · rw [Function.update_of_ne (stores .one),Function.update_of_ne (stores .one)]
    exact core.present
  · have short (l : Text) : under m [l] ≠ under m rest := by
      refine apart fun same => ?_
      rw [← same] at long
      simp at long
    refine ⟨?_,?_,?_,?_⟩
    · rw [Function.update_of_ne (stores .one)]
      exact core.solo.used
    · rw [Function.update_of_ne (stores .one)]
      exact core.solo.single
    · intro empty l dir
      rw [Function.update_of_ne (stores .one)] at empty
      rw [Function.update_of_ne (short l)] at dir
      exact core.solo.bare empty l dir
    · rw [Function.update_of_ne (stores .one),contentsApart (stores .ens)]
      exact core.solo.unread

theorem coreRecord (core : Core r left m alone again) {k : Nat} {loads : List Text}
    (uses : r.Uses k m stg loads) {record : Text} (some_ : record ≠ [])
    (loadDir : stg = .ens → fileText (alone (storePath m .one)) ≠ some []) : Core r left m
      (Function.update alone (storePath m stg) (some (.file (contents alone (storePath m stg) ++ record))))
      (Function.update again (storePath m stg) (some (.file (contents again (storePath m stg) ++ record)))) := by
  have other {s : NNStg} (different : s ≠ stg) : storePath m s ≠ storePath m stg :=
    fun same => different (storePathInjective same).2
  constructor
  · intro dir data
    rw [Function.update_of_ne (dataDirStore data stg)]
    exact core.noFile dir data
  · intro rest written
    rw [Function.update_of_ne (belowStore (writtenBelow written) stg)]
    exact core.noDir rest written
  · intro k s loads uses
    by_cases mine : s = stg
    · subst mine
      rw [Function.update_self]
      exact nofun
    · rw [Function.update_of_ne (other mine)]
      exact core.storeFile k s loads uses
  · intro rest below
    rw [Function.update_of_ne (belowStore below stg),Function.update_of_ne (belowStore below stg)]
    exact core.data rest below
  · intro s
    by_cases mine : s = stg
    · subst mine
      rw [contentsFile (Function.update_self ..),contentsFile (Function.update_self ..),core.store,
        List.append_assoc]
    · rw [contentsApart (other mine),contentsApart (other mine)]
      exact core.store s
  · intro there
    by_cases mine : stg = .one
    · subst mine
      rw [Function.update_self]
      exact .inr nofun
    · rw [Function.update_of_ne (other (Ne.symm mine))] at there ⊢
      exact core.present there
  · have full : fileText (Function.update alone (storePath m stg)
        (some (.file (contents alone (storePath m stg) ++ record))) (storePath m .one)) ≠ some [] := by
      cases stg with
      | one =>
        rw [Function.update_self]
        intro none_
        exact some_ (List.append_eq_nil_iff.mp (Option.some.inj none_)).2
      | ens =>
        rw [Function.update_of_ne (other (by decide))]
        exact loadDir rfl
    refine ⟨?_,?_,fun empty => absurd empty full,fun empty => absurd empty full⟩ <;>
      by_cases mine : stg = .one
    · subst mine
      exact fun _ => ⟨k,loads,uses⟩
    · rw [Function.update_of_ne (other (Ne.symm mine))]
      exact core.solo.used
    · subst mine
      rw [Function.update_self]
      exact nofun
    · rw [Function.update_of_ne (other (Ne.symm mine))]
      exact core.solo.single

end

end Autonomizer.Leftovers
