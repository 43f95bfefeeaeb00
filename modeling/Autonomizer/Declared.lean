import Mathlib
import Autonomizer.LastWins

/-! The models that a stored value reaches. storeModelMap has one model for each store
name, that of the last network which listed it. -/
namespace Autonomizer.Declared
open Data DataFiles FileIO FileSystem Footprint Format LastWins Outcome PIInc Process ProgIntel SingleModel

/- The store names of the model's most recent network. -/
def latest (m : Text) : List Call → Option (List Text)
  | [] => none
  | .piNN modelName _ _ storeNames :: rest =>
      (latest m rest).or (if modelName = m then some storeNames else none)
  | _ :: rest => latest m rest

def declares (before : List Call) (m name : Text) : Bool :=
  match latest m before with
  | some storeNames => storeNames.contains name
  | none => false

/- The model of the most recent network that lists the store name. -/
def owner (name : Text) : List Call → Option Text
  | [] => none
  | .piNN modelName _ _ storeNames :: rest =>
      (owner name rest).or (if name ∈ storeNames then some modelName else none)
  | _ :: rest => owner name rest

/- The models whose most recent network lists the name are one: that of the most recent
network which lists it. -/
def OneLabel (before : List Call) (name : Text) : Prop :=
  ∀ m, declares before m name = true ↔ owner name before = some m

/- The section of a store's context. -/
def Section (ctx : PIContext) (name text : Text) : Prop :=
  ∃ pDC values, ctx.storeMap name = some pDC ∧ storeValues pDC ctx.memory = .ok values ∧
    text = storeText name pDC.nmemb values

def appended (path : Path) (log : Log Op Reply) : List Text :=
  log.filterMap (fun e => match e with
    | (.append file text,.ok) => if file = path then some text else none
    | _ => none)

/- The section is appended once to the file of the current input of every model whose most
recent network lists the name, and to no other data file. -/
def Labelled (before : List Call) (place : Text × Nat) (name : Text) (ctx : PIContext)
    (log : Log Op Reply) : Prop :=
  ∃ text, Section ctx name text ∧ ∀ m at_, appended (dataFile m at_) log =
    if at_ = place ∧ declares before m name = true then [text] else []

def Single (script : List Call) : Prop :=
  ∀ m stg loads stores, Call.piNN m stg loads stores ∈ script → stg = .one

section
variable {ctx last : PIContext} {log : Log Op Reply} {place : Text × Nat}

/- What the calls so far have made of the place and of storeModelMap. -/
structure Labels (place : Text × Nat) (before : List Call) (ctx : PIContext) : Prop where
  place : dataPlace ctx = some place
  label : ∀ name, (ctx.storeModelMap name).map (fun entry => entry.1) =
    (owner name before).map (fun m => (m,.one))

theorem framedLabels {before : List Call} {next : PIContext} (labels : Labels place before ctx)
    (framed : Framed ctx next) : Labels place before next := by
  rw [framed]
  exact ⟨labels.place,labels.label⟩

theorem ownerAppend (name : Text) (before after : List Call) :
    owner name (before ++ after) = (owner name after).or (owner name before) := by
  induction before with
  | nil => exact (Option.or_none).symm
  | cons c rest ih =>
    cases c with
    | piNN m stg loads stores =>
      simp only [List.cons_append,owner,ih,Option.or_assoc]
    | _ => exact ih

theorem callLabels {before : List Call} {c : Call} (labels : Labels place before ctx)
    (single : Single [c]) (ran : Ran (ProgIntel.call ctx c) log last) :
    Labels place (before ++ [c]) last := by
  obtain ⟨framed,same,rfl⟩ := callFramed ran
  have here := framedLabels labels same
  cases c with
  | piNN m stg loads stores =>
    cases single m stg loads stores List.mem_cons_self
    refine ⟨here.place,fun name => ?_⟩
    rw [ownerAppend]
    by_cases listed : name ∈ stores
    · simp only [labelsAfter,recordStores,if_pos listed,owner,Option.none_or,Option.map_some,
        Option.some_or]
    · simp only [labelsAfter,recordStores,if_neg listed,owner,Option.none_or]
      exact here.label name
  | _ => exact ⟨here.place,fun name => (here.label name).trans (by rw [ownerAppend]; rfl)⟩

theorem callsLabels {before script : List Call} (labels : Labels place before ctx)
    (single : Single script) (ran : Ran (calls ctx script) log last) :
    Labels place (before ++ script) last := by
  induction script generalizing ctx before log with
  | nil =>
    rw [(ranPure.mp ran).2,List.append_nil]
    exact labels
  | cons c rest ih =>
    obtain ⟨early,mid,late,first,after,-⟩ := ranBind.mp ran
    have one := callLabels labels (fun m stg loads stores inside =>
      single m stg loads stores (List.mem_singleton.mp inside ▸ List.mem_cons_self)) first
    have all := ih one (fun m stg loads stores inside =>
      single m stg loads stores (List.mem_cons_of_mem c inside)) after
    rw [List.append_assoc] at all
    exact all

theorem callsPlace {script : List Call} (ran : Ran (calls ctx script) log last) :
    dataPlace last = dataPlace ctx := by
  induction script generalizing ctx log with
  | nil => rw [(ranPure.mp ran).2]
  | cons c rest ih =>
    obtain ⟨early,mid,late,first,after,-⟩ := ranBind.mp ran
    obtain ⟨framed,same,rfl⟩ := callFramed first
    have kept : dataPlace framed = dataPlace ctx := by
      rw [same]
      rfl
    have labelled : dataPlace (labelsAfter framed c) = dataPlace framed := by cases c <;> rfl
    exact (ih after).trans (labelled.trans kept)

theorem appendedAppend (path : Path) (early late : Log Op Reply) :
    appended path (early ++ late) = appended path early ++ appended path late :=
  List.filterMap_append

theorem appendedNone {path : Path} {log : Log Op Reply}
    (none_ : ∀ e ∈ log, ∀ text, e.1 ≠ .append path text) : appended path log = [] := by
  refine List.filterMap_eq_nil_iff.mpr (fun e inside => ?_)
  obtain ⟨op,r⟩ := e
  split
  · next file text same =>
    obtain ⟨rfl,rfl⟩ := Prod.mk.inj same
    refine if_neg (fun here => none_ _ inside text ?_)
    rw [here]
  · rfl

/- A store that returns has appended its section to the file of the owner, and to no
other. -/
theorem storeAppends {before : List Call} {name : Text} {tID : TypeID} {nmemb : Int}
    {data : Pointer} (labels : Labels place before ctx)
    (ran : Ran (store ctx name tID nmemb data) log last) : ∃ m text, owner name before = some m ∧
      Section last name text ∧ ∀ other at_, appended (dataFile other at_) log =
        if at_ = place ∧ other = m then [text] else [] := by
  obtain ⟨m,stg,loads,early,late,entry,done,rfl,file,info⟩ := ranStore ran
  have label := labels.label name
  rw [entry] at label
  cases owned : owner name before with
  | none =>
    rw [owned] at label
    cases label
  | some m' =>
    rw [owned] at label
    cases label
    rw [(framedLabels labels (storeContextFramed done)).place] at file
    obtain ⟨asked,_,_,asserted,wrote,rfl⟩ := ranBind.mp file
    have quiet : Only (fun _ => False) (knownDataDir place.1) := onlyAssert _ _
    cases List.eq_nil_iff_forall_not_mem.mpr (ranOnly quiet asserted)
    obtain ⟨pDC,values,held,got,rfl⟩ := ranStoreFile.mp wrote
    have sect : Section last name (storeText name pDC.nmemb values) := ⟨pDC,values,held,got,rfl⟩
    have noInfo (other : Text) (at_ : Text × Nat) : appended (dataFile other at_) late = [] := by
      refine appendedNone (fun e inside text => ?_)
      split at info
      · have elsewhere : Only (· ≠ .append (dataFile other at_) text)
            (prodWriteStoreInfo m name tID nmemb .one) := by
          refine onlyStoreInfo ⟨nofun,nofun⟩ nofun (fun same => ?_) nofun
          have paths : storePath m .one = dataFile other at_ := (Op.append.inj same).1
          exact absurd (congrArg List.length paths) (by simp [storePath,dataFile])
        exact ranOnly elsewhere info e inside
      · rw [info] at inside
        cases inside
    refine ⟨m,_,rfl,sect,fun other at_ => ?_⟩
    rw [appendedAppend,noInfo,List.append_nil]
    have path : [piDir,m,place.1] ++ [decimal place.2] = dataFile m place := rfl
    simp only [List.nil_append,appended,List.filterMap_cons,List.filterMap_nil,path]
    by_cases same : at_ = place ∧ other = m
    · obtain ⟨rfl,rfl⟩ := same
      simp only [if_true,and_self]
    · have apart : dataFile m place ≠ dataFile other at_ := fun paths => by
        have inner : m = other := (List.cons.inj (List.cons.inj paths).2).1
        rw [inner] at paths
        exact same ⟨(dataFileInjective paths).symm,inner.symm⟩
      simp only [if_neg apart,if_neg same]

/- A store reaches exactly the models that declare it if and only if these are the one
model of the last network which listed it. -/
theorem labelledIff {modPath : Text} {n v k : Nat} {before : List Call} {past : Log Op Reply}
    {name : Text} {tID : TypeID} {nmemb : Int} {data : Pointer} (below : k < n + v)
    (single : Single before) (begun : Ran (calls (childContext modPath n v k) before) past ctx)
    (stored : Ran (store ctx name tID nmemb data) log last) :
    Labelled before (placeOf n k) name last log ↔ OneLabel before name := by
  have start : Labels (placeOf n k) [] (childContext modPath n v k) :=
    ⟨childPlace modPath below,fun _ => rfl⟩
  obtain ⟨m,text,owned,sect,files⟩ := storeAppends (callsLabels start single begun) stored
  rw [List.nil_append] at owned
  constructor
  · rintro ⟨other,_,reached⟩ m'
    rw [owned]
    have here := (files m' (placeOf n k)).symm.trans (reached m' (placeOf n k))
    simp only [true_and] at here
    by_cases declared : declares before m' name = true
    · rw [if_pos declared] at here
      split at here
      · next same => exact ⟨fun _ => congrArg some same.symm,fun _ => declared⟩
      · cases here
    · rw [if_neg declared] at here
      split at here
      · cases here
      · next apart =>
        exact ⟨fun h => absurd h declared,fun h => absurd (Option.some.inj h).symm apart⟩
  · intro one
    refine ⟨text,sect,fun other at_ => ?_⟩
    rw [files]
    have same : other = m ↔ declares before other name = true := by
      rw [one other,owned,Option.some.injEq]
      exact eq_comm
    simp only [same]

end

/- The second child of two inputs, with a load and a network for each of the models. -/
def networks (models : List Text) : List Call :=
  .poke 1 [5,0,0,0] :: .piLoad ['x'] .i 1 1 true :: models.map (.piNN · .one [['x']] [['y']])

theorem networksSingle (models : List Text) : Single (networks models) := by
  intro m stg loads stores inside
  simp only [networks,List.mem_cons,reduceCtorEq,false_or,List.mem_map,Call.piNN.injEq] at inside
  obtain ⟨_,_,_,rfl,_⟩ := inside
  rfl

theorem onlyModelLabelled : ∃ past ctx log last,
    Ran (calls (childContext [] 2 0 1) (networks [['A']])) past ctx ∧
    Ran (store ctx ['y'] .i 1 1) log last ∧
    Labelled (networks [['A']]) (placeOf 2 1) ['y'] last log := by
  obtain ⟨ctx,last,begun,stored⟩ : ∃ ctx last,
      ((calls (childContext [] 2 0 1) (networks [['A']])).exec ready ()).1 = .ok ctx ∧
      ((store ctx ['y'] .i 1 1).exec ready ()).1 = .ok last := ⟨_,_,rfl,rfl⟩
  obtain ⟨past,begun⟩ := execRan begun
  obtain ⟨log,stored⟩ := execRan stored
  refine ⟨past,ctx,log,last,begun,stored,
    (labelledIff (by decide) (networksSingle _) begun stored).mpr (fun m => ?_)⟩
  have declared : declares (networks [['A']]) m ['y'] = true ↔ ['A'] = m := by
    by_cases same : ['A'] = m
    · cases same
      exact ⟨fun _ => rfl,fun _ => rfl⟩
    · simp only [networks,List.map_cons,List.map_nil,declares,latest,Option.none_or,if_neg same]
      exact ⟨nofun,fun h => absurd h same⟩
  exact declared.trans (Option.some.injEq ['A'] m ▸ Iff.rfl)

/- The first of two models that declare a store is not reached. -/
theorem firstModelMissed : ∃ past ctx log last,
    Ran (calls (childContext [] 2 0 1) (networks [['A'],['B']])) past ctx ∧
    Ran (store ctx ['y'] .i 1 1) log last ∧
    declares (networks [['A'],['B']]) ['A'] ['y'] = true ∧
    appended (dataFile ['A'] (placeOf 2 1)) log = [] ∧
    ¬ Labelled (networks [['A'],['B']]) (placeOf 2 1) ['y'] last log := by
  obtain ⟨ctx,last,begun,stored⟩ : ∃ ctx last,
      ((calls (childContext [] 2 0 1) (networks [['A'],['B']])).exec ready ()).1 = .ok ctx ∧
      ((store ctx ['y'] .i 1 1).exec ready ()).1 = .ok last := ⟨_,_,rfl,rfl⟩
  obtain ⟨past,begun⟩ := execRan begun
  obtain ⟨log,stored⟩ := execRan stored
  have start : Labels (placeOf 2 1) [] (childContext [] 2 0 1) :=
    ⟨childPlace [] (by decide),fun _ => rfl⟩
  obtain ⟨m,text,owned,_,files⟩ :=
    storeAppends (callsLabels start (networksSingle [['A'],['B']]) begun) stored
  have last_ : ['B'] = m := Option.some.inj owned
  have missed := files ['A'] (placeOf 2 1)
  rw [if_neg (fun here => absurd (here.2.trans last_.symm) (by decide))] at missed
  have declared : declares (networks [['A'],['B']]) ['A'] ['y'] = true := rfl
  refine ⟨past,ctx,log,last,begun,stored,declared,missed,fun ⟨other,_,reached⟩ => ?_⟩
  have here := missed.symm.trans (reached ['A'] (placeOf 2 1))
  rw [if_pos ⟨rfl,declared⟩] at here
  cases here

end Autonomizer.Declared
