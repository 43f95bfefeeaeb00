import Mathlib
import Autonomizer.PINNHelper
import Autonomizer.StoreFile
import Autonomizer.Template

/-! The data files at the end of a production run in which every child calls one
network of one single model: what each file holds, and which files there are. -/
namespace Autonomizer.DataFiles
open Binary64 Data FileIO FileSystem Footprint Format PIInc PIModelManager PINNHelper Process
open ProgIntel Shared SingleModel StoreFile Template Trace

/- Children whose networks are this one; before and after are their other calls. -/
def networkRun (m modPath : Text) (loads stores : List Text) (n v : Nat)
    (before after : Nat → List Call) : Nat → Steps Unit :=
  production modPath n v (fun k => scripted m loads stores (before k) (after k))

def isStore : Call → Bool
  | .piStore .. => true
  | _ => false

/- Stores come after the network they are for, and there is one network. -/
structure OneNetwork (before after : List Call) : Prop where
  loads : ∀ c ∈ before, isNN c = false ∧ isStore c = false
  rest : ∀ c ∈ after, isNN c = false

theorem oneCalls {m : Text} {loads stores : List Text} {before after : List Call}
    (one : OneNetwork before after) : ∀ c ∈ scripted m loads stores before after, OneCall m c := by
  have other {c : Call} (plain : isNN c = false) : OneCall m c := by
    intro modelName stg loads stores same
    rw [same] at plain
    cases plain
  intro c inside
  rcases List.mem_append.mp inside with early | late
  · exact other (one.loads c early).1
  · rcases List.mem_cons.mp late with same | after
    · intro modelName stg loads stores equal
      cases same.symm.trans equal
      exact ⟨rfl,rfl⟩
    · exact other (one.rest c after)

theorem meetsBothRules {ε α : Type} {m : Text} {place : Text × Nat} {zero inOrder : Prop}
    {log : Log Op Reply} {p : Prog Op Reply ε α} {Q : Log Op Reply → α → Prop}
    {E : Log Op Reply → ε → Prop} (meets : Meets (childRules m place zero False) log p Q E) :
    Meets (bothRules m place zero inOrder) log p Q E := by
  induction p generalizing log with
  | ret a => exact meets
  | stop e => exact meets
  | call op next ih => exact ⟨⟨meets.1,trivial⟩,fun r reply => ih r (meets.2 r reply.1)⟩

structure ChildEnded (m modPath : Text) (loads stores : List Text) (n v : Nat)
    (before after : Nat → List Call) (inOrder : Prop) (k : Nat) (log : Log Op Reply) : Prop where
  ended : Ended m modPath n v (scripted m loads stores (before k) (after k)) k log
  leaves : k < n + v → Leaves m modPath (k = 0) inOrder (childContext modPath n v k) loads stores
    (before k) log

section
variable {m modPath : Text} {loads stores : List Text} {n v : Nat} {before after : Nat → List Call}

theorem childEnds (some_ : 1 ≤ n) (one : ∀ k < n + v, OneNetwork (before k) (after k))
    (inOrder : Prop) (k : Nat) : Meets (bothRules m (placeOf n k) (k = 0) inOrder) []
      (networkRun m modPath loads stores n v before after k)
      (fun l _ => ChildEnded m modPath loads stores n v before after inOrder k l)
      (fun _ _ => True) := by
  have first : Meets (bothRules m (placeOf n k) (k = 0) inOrder) []
      (networkRun m modPath loads stores n v before after k)
      (fun l _ => Ended m modPath n v (scripted m loads stores (before k) (after k)) k l)
      (fun _ _ => True) :=
    meetsBothRules (childMeets some_ (fun below => oneCalls (one k below)) False)
  by_cases below : k < n + v
  · have second : Meets (bothRules m (placeOf n k) (k = 0) inOrder) []
        (networkRun m modPath loads stores n v before after k)
        (fun l _ => Leaves m modPath (k = 0) inOrder (childContext modPath n v k) loads stores
          (before k) l) (fun _ _ => True) := by
      rw [networkRun,production,if_pos below,child,meetsBind]
      exact meetsReturns (scriptedLeaves (childInPlace m modPath some_ below)
        (fun c inside => ((one k below).loads c inside).1) (one k below).rest)
        (fun _ _ leaves => leaves)
    exact meetsMono (meetsAnd first second)
      (fun l _ done => ⟨done.1,fun _ => done.2⟩)
      (fun _ _ _ => trivial)
  · rw [networkRun,production,if_neg below]
    exact ⟨fun here => absurd here below,fun here => absurd here below⟩

theorem placeInjective {j k : Nat} (same : placeOf n j = placeOf n k) : j = k := by
  have dirs : piTrainDir ≠ piValidDir := by decide
  unfold placeOf at same
  split at same <;> split at same
  · exact (Prod.mk.inj same).2
  · exact absurd (Prod.mk.inj same).1 dirs
  · exact absurd (Prod.mk.inj same).1.symm dirs
  · have := (Prod.mk.inj same).2
    omega

theorem dataFileInjective {p q : Text × Nat} (same : dataFile m p = dataFile m q) : p = q := by
  simp only [dataFile,List.cons.injEq,true_and,and_true] at same
  exact Prod.ext same.1 (Int.ofNat.inj (decimalInjective same.2))

theorem dataOwned {j k : Nat} (other : j ≠ k) :
    ¬ (childFoot m (placeOf n j) (j = 0)).writes (dataFile m (placeOf n k)) := by
  have apart : dataFile m (placeOf n k) ≠ dataFile m (placeOf n j) :=
    fun same => other (placeInjective (dataFileInjective same)).symm
  rintro ((store | data | ⟨_,py⟩) | data | ⟨_,store | py⟩)
  · exact dataFileDeep m _ store.symm
  · exact apart data
  · exact pyFootData m (.inl py)
  · exact apart data
  · exact dataFileDeep m _ store.symm
  · exact pyFootData m (.inr py)

theorem templateOwned {j : Nat} (other : j ≠ 0) :
    ¬ (childFoot m (placeOf n j) (j = 0)).writes (templatePath m) := by
  have store : templatePath m ≠ storePath m .one :=
    fun same => pyFootStore m (.inl (.inl same.symm))
  have data : templatePath m ≠ dataFile m (placeOf n j) :=
    fun same => pyFootData m (.inl (.inl same.symm))
  rintro ((h | h | ⟨zero,_⟩) | h | ⟨zero,_⟩)
  · exact store h
  · exact data h
  · exact other zero
  · exact data h
  · exact other zero

structure Finished (m modPath : Text) (loads stores : List Text) (n v : Nat)
    (before after : Nat → List Call) (inOrder : Prop) (t : Children) : Prop where
  file : ∀ k < n + v, ∃ next pieces, effects (childContext modPath n v k)
      (scripted m loads stores (before k) (after k)) = .ok (next,pieces) ∧
    fileText (t.shared (dataFile m (placeOf n k))) = pieces.foldl Piece.onto none
  leaves : ∀ k < n + v, Leaves m modPath (k = 0) inOrder (childContext modPath n v k) loads stores
    (before k) (t.past k)
  template : fileText (t.shared (templatePath m)) = replay (templatePath m) none (t.past 0)
  below : (∀ k < n + v, NoLoadFiles m (t.past k)) → ∀ dir rest, rest ≠ [] →
    (fileText (t.shared ([piDir,m,dir] ++ rest))).isSome →
      ∃ k < n + v, [piDir,m,dir] ++ rest = dataFile m (placeOf n k)

theorem finished {fs : FS} (fresh : Fresh m fs) {inOrder : Prop} {t : Children}
    (tracked : Tracked fs (fun k => childFoot m (placeOf n k) (k = 0)) t)
    (met : AllMeet (fun k => bothRules m (placeOf n k) (k = 0) inOrder)
      (ChildEnded m modPath loads stores n v before after inOrder) (fun _ _ _ => True) t)
    (done : ∀ k < n + v, (t.procs k).returned) (outside : ∀ k, n + v ≤ k → t.past k = []) :
    Finished m modPath loads stores n v before after inOrder t := by
  have ended : ∀ k < n + v, ChildEnded m modPath loads stores n v before after inOrder k (t.past k) := by
    intro k below
    have here := met k
    have returned := done k below
    cases last : t.procs k with
    | ret a => rw [last] at here; exact here
    | stop e => rw [last] at returned; cases returned
    | call op next => rw [last] at returned; cases returned
  have absent (rest : List Text) : fileText (fs (piDir :: m :: rest)) = none := by
    rw [fresh.model rest]
    rfl
  refine ⟨fun k below => ?_,fun k below => (ended k below).leaves below,?_,?_⟩
  · obtain ⟨next,pieces,effects_,wrote⟩ := (ended k below).ended below
    refine ⟨next,pieces,effects_,?_⟩
    have owned := tracked.owned k (dataFile m (placeOf n k)) (fun j other => dataOwned other)
    rw [owned,wrote.data,dataFile,absent]
    rfl
  · have owned := tracked.owned 0 (templatePath m) (fun j other => templateOwned other)
    rw [owned,templatePath,absent]
  · intro none_ dir rest deep here
    rcases tracked.file _ here with old | ⟨i,e,inside,file⟩
    · have nothing : fileText (fs ([piDir,m,dir] ++ rest)) = none := absent (dir :: rest)
      rw [nothing] at old
      cases old
    · have writes := writesFile (tracked.within i e inside) file
      have inRun : i < n + v := by
        by_contra none
        rw [outside i (by omega)] at inside
        cases inside
      have notStore : [piDir,m,dir] ++ rest ≠ storePath m .one := fun same => by
        simp [storePath,deep] at same
      have noModel : ¬ (pyFoot m).writes ([piDir,m,dir] ++ rest) := fun py => by
        rcases pyFootFile py with same | ⟨load,same⟩
        · simp [templatePath,deep] at same
        · exact none_ i inRun e inside load (same ▸ file)
      rcases writes with (store | data | ⟨_,py⟩) | data | ⟨_,store | py⟩
      · exact absurd store notStore
      · exact ⟨i,inRun,data⟩
      · exact absurd (.inl py) noModel
      · exact ⟨i,inRun,data⟩
      · exact absurd store notStore
      · exact absurd (.inr py) noModel

end

theorem effectsAppend {ctx last : PIContext} {first second : List Call} {pieces : List Piece}
    (done : effects ctx (first ++ second) = .ok (last,pieces)) : ∃ mid early late,
      effects ctx first = .ok (mid,early) ∧ effects mid second = .ok (last,late) ∧
      pieces = early ++ late := by
  induction first generalizing ctx pieces with
  | nil => exact ⟨ctx,[],pieces,rfl,done,rfl⟩
  | cons c rest ih =>
    simp only [List.cons_append,effects,bind,Except.bind] at done
    split at done <;> try contradiction
    next pair taken =>
    obtain ⟨next,here⟩ := pair
    dsimp only at done
    split at done <;> try contradiction
    next pair rested =>
    obtain ⟨end_,more⟩ := pair
    cases done
    obtain ⟨mid,early,late,before,after,rfl⟩ := ih rested
    refine ⟨mid,here ++ early,late,?_,after,(List.append_assoc ..).symm⟩
    simp [effects,taken,before,bind,Except.bind,pure,Except.pure]

theorem effectsCons {ctx last : PIContext} {c : Call} {rest : List Call} {pieces : List Piece}
    (done : effects ctx (c :: rest) = .ok (last,pieces)) : ∃ mid early late,
      effectOf ctx c = .ok (mid,early) ∧ effects mid rest = .ok (last,late) ∧
      pieces = early ++ late := by
  obtain ⟨mid,early,late,first,after,same⟩ := effectsAppend (show effects ctx ([c] ++ rest) = _ from done)
  refine ⟨mid,early,late,?_,after,same⟩
  simp only [effects,bind,Except.bind] at first
  split at first <;> try contradiction
  next pair taken =>
  cases first
  rw [taken,List.append_nil]

theorem quietPieces {ctx next : PIContext} {c : Call} {pieces : List Piece}
    (plain : isNN c = false ∧ isStore c = false) (done : effectOf ctx c = .ok (next,pieces)) :
    pieces = [] := by
  cases c with
  | piLoad name tID nmemb data doAlloc =>
    simp only [effectOf,bind,Except.bind] at done
    split at done <;> try contradiction
    cases done
    rfl
  | piLoadCB name tID nmemb cb =>
    simp only [effectOf,bind,Except.bind] at done
    split at done <;> try contradiction
    cases done
    rfl
  | piNN modelName stg loads stores => simp [isNN] at plain
  | piStore name tID nmemb data => simp [isStore] at plain
  | poke data bytes =>
    simp only [effectOf] at done
    split at done <;> try contradiction
    cases done
    rfl

theorem loadsWriteNothing {ctx next : PIContext} {script : List Call} {pieces : List Piece}
    (plain : ∀ c ∈ script, isNN c = false ∧ isStore c = false)
    (done : effects ctx script = .ok (next,pieces)) : pieces = [] := by
  induction script generalizing ctx pieces with
  | nil => cases done; rfl
  | cons c rest ih =>
    obtain ⟨mid,early,late,taken,rested,rfl⟩ := effectsCons done
    rw [quietPieces (plain c List.mem_cons_self) taken,
      ih (fun d inside => plain d (List.mem_cons_of_mem c inside)) rested]
    rfl

theorem scriptedEffects {ctx last : PIContext} {pieces : List Piece} {m : Text}
    {loads stores : List Text} {before after : List Call} (one : OneNetwork before after)
    (done : effects ctx (scripted m loads stores before after) = .ok (last,pieces)) :
    ∃ ctx₁ ctx₂ pDC values outs, effects ctx before = .ok (ctx₁,[]) ∧
      combineLoad ctx₁ loads = .ok ctx₂ ∧ ctx₂.loadMap (loads.headD []) = some pDC ∧
      loadValues pDC ctx₂.memory = .ok values ∧
      effects (recordStores ctx₂ m .one loads stores) after = .ok (last,outs) ∧
      pieces = .input (loads.headD []) pDC.nmemb values :: outs := by
  obtain ⟨ctx₁,early,late,first,rest,rfl⟩ := effectsAppend done
  cases loadsWriteNothing one.loads first
  obtain ⟨mid,input,outs,network,stored,rfl⟩ := effectsCons rest
  simp only [effectOf,bind,Except.bind] at network
  split at network <;> try contradiction
  next ctx₂ combined =>
  split at network <;> try contradiction
  next pDC known =>
  split at network <;> try contradiction
  next values got =>
  cases network
  exact ⟨ctx₁,ctx₂,pDC,values,outs,first,combined,known,got,stored,rfl⟩

def partOf : Piece → Part
  | .input name nmemb values => ⟨.dIn,name,nmemb,values⟩
  | .output name nmemb values => ⟨.dOut,name,nmemb,values⟩

def Piece.isOutput : Piece → Prop
  | .input .. => False
  | .output .. => True

theorem outputsOnto {outs : List Piece} (outputs : ∀ p ∈ outs, Piece.isOutput p) (text : Text) :
    outs.foldl Piece.onto (some text) = some (text ++ (outs.map partOf).flatMap Part.text) := by
  induction outs generalizing text with
  | nil => simp
  | cons p outs ih =>
    cases p with
    | input name nmemb values => exact absurd (outputs _ List.mem_cons_self) id
    | output name nmemb values =>
      rw [List.foldl_cons,List.map_cons,List.flatMap_cons,← List.append_assoc]
      exact ih (fun q inside => outputs q (List.mem_cons_of_mem _ inside)) _

theorem valuesLength {pDC : DataContext} {m : Memory} {values : List Scalar}
    (got : pDC.values m = .ok values) : values.length = pDC.nmemb.toNat := by
  simp only [DataContext.values,bind,Except.bind] at got
  split at got <;> try contradiction
  split at got
  · next none => cases got; exact (Int.toNat_of_nonpos none).symm
  · split at got <;> try contradiction
    cases got
    simp [elements]

theorem loadValuesLength {pDC : DataContext} {m : Memory} {values : List Scalar}
    (got : loadValues pDC m = .ok values) : values.length = pDC.nmemb.toNat := by
  unfold loadValues at got
  split at got
  · cases got
  · exact valuesLength got

theorem storeValuesEnough {pDC : DataContext} {m : Memory} {values : List Scalar}
    (got : storeValues pDC m = .ok values) : pDC.nmemb.toNat ≤ values.length := by
  unfold storeValues at got
  split at got
  all_goals first
    | exact (valuesLength got).ge
    | (simp only [bind,Except.bind] at got
       split at got <;> try contradiction
       split at got <;> try contradiction
       next rest found =>
       cases got
       rw [List.length_cons,valuesLength found]
       exact Nat.le_succ _)
    | cases got

theorem storePiece {ctx next : PIContext} {name : Text} {tID : TypeID} {nmemb : Int} {data : Pointer}
    {pieces : List Piece} (done : effectOf ctx (.piStore name tID nmemb data) = .ok (next,pieces)) :
    storeContext ctx name tID nmemb data = .ok next ∧ ∃ pDC values, next.storeMap name = some pDC ∧
      storeValues pDC next.memory = .ok values ∧ pieces = [.output name pDC.nmemb values] := by
  simp only [effectOf,bind,Except.bind] at done
  split at done <;> try contradiction
  next ctx' stored =>
  split at done <;> try contradiction
  next pDC known =>
  split at done <;> try contradiction
  next values got =>
  cases done
  exact ⟨stored,pDC,values,known,got,rfl⟩

theorem outputPieces {ctx next : PIContext} {script : List Call} {outs : List Piece}
    (plain : ∀ c ∈ script, isNN c = false) (done : effects ctx script = .ok (next,outs)) :
    (∀ p ∈ outs, Piece.isOutput p) ∧ ∀ p ∈ outs, (partOf p).enough := by
  induction script generalizing ctx outs with
  | nil => cases done; simp
  | cons c rest ih =>
    obtain ⟨mid,early,late,taken,rested,rfl⟩ := effectsCons done
    obtain ⟨outputs,all⟩ := ih (fun d inside => plain d (List.mem_cons_of_mem c inside)) rested
    cases store : isStore c with
    | false =>
      cases quietPieces ⟨plain c List.mem_cons_self,store⟩ taken
      exact ⟨outputs,all⟩
    | true =>
      cases c with
      | piStore name tID nmemb data =>
        obtain ⟨_,pDC,values,_,got,rfl⟩ := storePiece taken
        have room : (partOf (.output name pDC.nmemb values)).enough := storeValuesEnough got
        refine ⟨fun p inside => ?_,fun p inside => ?_⟩
        · rcases List.mem_cons.mp inside with rfl | later
          · trivial
          · exact outputs p later
        · rcases List.mem_cons.mp inside with rfl | later
          · exact room
          · exact all p later
      | _ => cases store

theorem fileSections {first : Text} {nmemb : Int} {values : List Scalar} {outs : List Piece}
    (outputs : ∀ p ∈ outs, Piece.isOutput p) :
    (Piece.input first nmemb values :: outs).foldl Piece.onto none =
      some ((⟨.dIn,first,nmemb,values⟩ :: outs.map partOf : List Part).flatMap Part.text) := by
  rw [List.foldl_cons,List.flatMap_cons]
  exact outputsOnto outputs _

theorem fileAt {fs : FS} {path : Path} {text : Text} (found : fileText (fs path) = some text) :
    fs path = some (.file text) := by
  cases here : fs path with
  | none => rw [here] at found; cases found
  | some node => cases node with
    | dir => rw [here] at found; cases found
    | file old => rw [here] at found; cases found; rfl

section
variable {m modPath : Text} {loads stores : List Text} {n v : Nat} {before after : Nat → List Call}
  {inOrder : Prop} {t : Children}

theorem walkFiles (end_ : Finished m modPath loads stores n v before after inOrder t)
    (clear : ∀ k < n + v, NoLoadFiles m (t.past k)) {dir : Text} {files : List Path}
    (walk : Walk t.shared [piDir,m,dir] files) : ∀ path ∈ files, ∃ k < n + v,
      path = dataFile m (placeOf n k) := by
  intro path inside
  obtain ⟨⟨rest,deep,rfl⟩,here⟩ := (walk.below path).mp inside
  exact end_.below clear dir rest deep here

theorem trainFile (end_ : Finished m modPath loads stores n v before after inOrder t)
    (clear : ∀ k < n + v, NoLoadFiles m (t.past k))
    (written : ∀ k < n, (fileText (t.shared (dataFile m (piTrainDir,k)))).isSome) (path : Path) :
    (∃ k < n, path = dataFile m (piTrainDir,k)) ↔
      (∃ rest, rest ≠ [] ∧ path = [piDir,m,piTrainDir] ++ rest) ∧
        (fileText (t.shared path)).isSome := by
  constructor
  · rintro ⟨k,below,rfl⟩
    exact ⟨⟨[decimal k],List.cons_ne_nil _ _,rfl⟩,written k below⟩
  · rintro ⟨⟨rest,deep,rfl⟩,here⟩
    obtain ⟨k,_,same⟩ := end_.below clear piTrainDir rest deep here
    by_cases train : k < n
    · rw [placeOf,if_pos train] at same
      exact ⟨k,train,same⟩
    · rw [placeOf,if_neg train,dataFile] at same
      simp only [List.cons_append,List.nil_append,List.cons.injEq,true_and] at same
      exact absurd same.1 (by decide)

theorem trainWalk (end_ : Finished m modPath loads stores n v before after inOrder t)
    (clear : ∀ k < n + v, NoLoadFiles m (t.past k))
    (written : ∀ k < n, (fileText (t.shared (dataFile m (piTrainDir,k)))).isSome) :
    Walk t.shared [piDir,m,piTrainDir] ((List.range n).map fun k => dataFile m (piTrainDir,k)) := by
  refine ⟨List.Nodup.map (fun j k same => ?_) List.nodup_range,fun path => ?_⟩
  · exact (Prod.mk.inj (dataFileInjective same)).2
  · rw [← trainFile end_ clear written]
    simp only [List.mem_map,List.mem_range,eq_comm]

theorem clearGenerated (end_ : Finished m modPath loads stores n v before after inOrder t)
    {text : Text} (generated : t.shared (templatePath m) = some (.file text)) :
    ∀ k < n + v, NoLoadFiles m (t.past k) := by
  intro k below
  by_cases first : k = 0
  · subst first
    obtain ⟨_,_,_,_,_,_,_,_,clear⟩ := (end_.leaves 0 below).first rfl
    refine clear (.inr ?_)
    rw [← end_.template,generated]
    exact Option.some_ne_none _
  · exact (end_.leaves k below).others first

theorem runFinished (some_ : 1 ≤ n) (one : ∀ k < n + v, OneNetwork (before k) (after k)) {fs : FS}
    (fresh : Fresh m fs) {schedule : List Nat}
    (run : Run (System.step handle) (fun _ _ => True)
      (start fs (networkRun m modPath loads stores n v before after)) schedule t)
    (done : ∀ k < n + v, (t.procs k).returned) :
    Finished m modPath loads stores n v before after False t := by
  have whole : Tracked fs (fun k => childFoot m (placeOf n k) (k = 0)) t ∧
      AllMeet (fun k => bothRules m (placeOf n k) (k = 0) False)
        (ChildEnded m modPath loads stores n v before after False) (fun _ _ _ => True) t := by
    refine runTracked ?_ ?_ (fun k => childEnds some_ one False k) run
    · exact fun k log op calls => calls.1.1
    · exact fun s k op _ tracked _ => ⟨childReplies tracked (fresh.model []) (fun h => absurd h id) op,
        fun h => absurd h id⟩
  refine finished fresh whole.1 whole.2 done (fun k outside => idleRun ?_ run)
  rw [networkRun,production,if_neg (by omega)]
  rfl

end

end Autonomizer.DataFiles
