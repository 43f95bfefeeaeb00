import Mathlib
import Autonomizer.SingleModel

/-! The store file of a single model while the children of a production run create,
truncate and append to it at any time. -/
namespace Autonomizer.StoreFile
open Data FileIO FileSystem Format PIInc Process ProgIntel Shared SingleModel Trace

abbrev Children := System Nat FS Op Reply Stop

/- .piDir is there and the model's directory is not. -/
structure Fresh (m : Text) (fs : FS) : Prop where
  main : fs [piDir] = some .dir
  model : ∀ rest, fs (piDir :: m :: rest) = none

def Kept (records : List Text) (text : Text) : Prop := ∀ r ∈ records, r <:+: text

theorem keptFlatten (records : List Text) : Kept records records.flatten := by
  intro r inside
  obtain ⟨before,after,rfl⟩ := List.append_of_mem inside
  rw [List.flatten_append,List.flatten_cons]
  exact ⟨before.flatten,after.flatten,by rw [List.append_assoc]⟩

/- A step that opens the store file with "w" finds it missing or empty. -/
def TruncatesEmpty (m : Text) (s : Children) (k : Nat) : Prop :=
  ∀ next, s.procs k = .call (.create (storePath m .one)) next →
    contents s.shared (storePath m .one) = []

def truncatesEmpty (m : Text) (s : Children) (k : Nat) : Bool :=
  match s.procs k with
  | .call op _ => op ≠ .create (storePath m .one) ∨ contents s.shared (storePath m .one) = []
  | _ => true

theorem truncatesEmptyHolds {m : Text} {s : Children} {k : Nat} (checked : truncatesEmpty m s k = true) :
    TruncatesEmpty m s k := by
  intro next called
  simpa [truncatesEmpty,called] using checked

theorem putsFirst {m : Text} {place : Text × Nat} {zero : Prop} {op : Op} {text : Text}
    (allowed : (childFoot m place zero).allows op)
    (put : op = .append (storePath m .one) text ∨ op = .write (storePath m .one) text) : zero := by
  have first : (childFoot m place zero).put (storePath m .one) := by
    rcases put with rfl | rfl <;> exact allowed
  rcases first with data | ⟨zero_,_⟩
  · exact absurd data (dataFileDeep m place)
  · exact zero_

/- In every run in which nobody truncates records, the file holds what child 0 has
written so far, in order; once child 0 is done these are the records of its stores. -/
theorem recordsKept {m modPath : Text} {n v : Nat} {scripts : Nat → List Call} {fs : FS}
    (some_ : 1 ≤ n) (fresh : Fresh m fs) (one : ∀ k < n + v, ∀ c ∈ scripts k, OneCall m c)
    {schedule : List Nat} {t : Children}
    (run : Run (System.step handle) (TruncatesEmpty m)
      (start fs (production modPath n v scripts)) schedule t) :
    contents t.shared (storePath m .one) = (puts (storePath m .one) (t.past 0)).flatten ∧
      Kept (puts (storePath m .one) (t.past 0)) (contents t.shared (storePath m .one)) ∧
      ((t.procs 0).returned →
        puts (storePath m .one) (t.past 0) = (scripts 0).flatMap recordOf) := by
  have empty : contents fs (storePath m .one) = [] := by
    have absent : fs (storePath m .one) = none := fresh.model _
    rw [contents,absent]; rfl
  have meets : AllMeet (fun k => childRules m (placeOf n k) (k = 0) False)
      (fun k l => Ended m modPath n v (scripts k) k l) (fun _ _ _ => True)
      (start fs (production modPath n v scripts)) :=
    fun k => childMeets some_ (one k) False
  have begins : Tracked fs (fun k => childFoot m (placeOf n k) (k = 0))
      (start fs (production modPath n v scripts)) ∧
      HoldsPuts (storePath m .one) 0 (start fs (production modPath n v scripts)) :=
    ⟨startTracked fs _ _,empty,fun last => by cases last⟩
  obtain ⟨⟨_,holds⟩,met⟩ := runMeets (fun s =>
    Tracked fs (fun k => childFoot m (placeOf n k) (k = 0)) s ∧ HoldsPuts (storePath m .one) 0 s)
    (by
      rintro s k op t allowed ⟨tracked,holds⟩ _ ⟨next,called⟩ calls shared past
      refine ⟨childReplies tracked (fresh.model []) (fun h => absurd h id) op,
        stepTracked tracked calls.1 shared past,?_⟩
      exact stepHoldsPuts holds (fun same => allowed next (same ▸ called))
        (fun text put => putsFirst calls.1 put) calls.2 shared past) run begins meets
  refine ⟨holds.text,?_,fun done => ?_⟩
  · rw [holds.text]
    exact keptFlatten _
  · have last := met 0
    cases first : t.procs 0 with
    | ret a =>
      rw [first] at last
      obtain ⟨next,pieces,_,wrote⟩ := last (by omega)
      exact wrote.store rfl
    | stop e => rw [first] at done; cases done
    | call op next => rw [first] at done; cases done

def oneInput : List Call :=
  [.poke 1 [5,0,0,0],.piLoad ['x'] .i 1 1 false,.piNN ['m'] .one [['x']] [['y']],
    .piStore ['y'] .i 1 1]

def twoChildren : Nat → Steps Unit := production [] 2 0 (fun _ => oneInput)

def onlyMain : FS := fun path => if path = [piDir] then some .dir else none

theorem onlyMainFresh : Fresh ['m'] onlyMain :=
  ⟨rfl,fun rest => if_neg (by simp)⟩

theorem oneInputOne : ∀ k < 2 + 0, ∀ c ∈ (fun _ => oneInput : Nat → List Call) k, OneCall ['m'] c := by
  intro k _ c inside modelName stg loads stores same
  subst same
  simp only [oneInput,List.mem_cons,List.not_mem_nil,or_false,reduceCtorEq,false_or,
    Call.piNN.injEq] at inside
  exact ⟨inside.1,inside.2.1⟩

def seen (t : Children) : Bool × Bool × Text × List Text :=
  ((t.procs 0).returned,(t.procs 1).returned,contents t.shared (storePath ['m'] .one),
    puts (storePath ['m'] .one) (t.past 0))

theorem recordsKeptInOrder : ∃ schedule t, Run (System.step handle) (TruncatesEmpty ['m'])
    (start onlyMain twoChildren) schedule t ∧ (t.procs 0).returned ∧
    contents t.shared (storePath ['m'] .one) = storeRecord ['y'] .i 1 := by
  have all : (stepsChecked (System.step handle) (truncatesEmpty ['m'])
      (start onlyMain twoChildren : Children) (List.replicate 16 0 ++ List.replicate 6 1)).map seen =
      some (true,true,storeRecord ['y'] .i 1,[storeRecord ['y'] .i 1]) := by
    decide +kernel
  obtain ⟨t,reached,end_⟩ := Option.map_eq_some_iff.mp all
  have run := runChecked (fun _ _ => truncatesEmptyHolds) reached
  obtain ⟨text,_,records⟩ := recordsKept (by omega) onlyMainFresh oneInputOne run
  have done : (t.procs 0).returned := (Prod.mk.inj end_).1
  exact ⟨_,t,run,done,by rw [text,records done]; rfl⟩

/- Child 1 tests for the directory, child 0 makes it and does all its work, and child 1
goes on to truncate the record. -/
theorem lateTruncationLoses : ∃ schedule t, Run (System.step handle) (fun _ _ => True)
    (start onlyMain twoChildren) schedule t ∧ (t.procs 0).returned ∧ (t.procs 1).returned ∧
    ¬ Kept (puts (storePath ['m'] .one) (t.past 0)) (contents t.shared (storePath ['m'] .one)) := by
  have all : (stepsChecked (System.step handle) (fun _ _ => true)
      (start onlyMain twoChildren : Children)
      ([1] ++ List.replicate 16 0 ++ List.replicate 7 1)).map seen =
      some (true,true,[],[storeRecord ['y'] .i 1]) := by
    decide +kernel
  obtain ⟨t,reached,end_⟩ := Option.map_eq_some_iff.mp all
  have run := runChecked (fun _ _ _ => trivial) reached
  simp only [seen,Prod.mk.injEq] at end_
  obtain ⟨first,second,text,records⟩ := end_
  refine ⟨_,t,run,first,second,fun kept => ?_⟩
  rw [text,records] at kept
  have lost := List.infix_nil.mp (kept _ (List.mem_singleton_self _))
  exact absurd lost (by decide)

end Autonomizer.StoreFile
