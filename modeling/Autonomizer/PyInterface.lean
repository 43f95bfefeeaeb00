import Mathlib
import Autonomizer.PIModelManager

/-! PyContext: the argument tuples of prod and test, filled slot by slot. -/
namespace Autonomizer.PyInterface
open Data FileIO FileSystem Format PIInc PIModelManager Process

/- PyTuple_New and PyTuple_SetItem at argIdx++; a slot outside the tuple is an error
that nobody looks at. -/
structure Tuple where
  slots : List (Option PyObject)
  argIdx : Nat

def Tuple.new (size : Nat) : Tuple := ⟨List.replicate size none,0⟩

def Tuple.push (t : Tuple) (o : PyObject) : Tuple := ⟨t.slots.set t.argIdx (some o),t.argIdx + 1⟩

def Tuple.pushAll (t : Tuple) (os : List PyObject) : Tuple := os.foldl Tuple.push t

def Tuple.args (t : Tuple) : Option (List PyObject) := t.slots.mapM id

def statusCode : Status → Int
  | .none => 0
  | .prod => 1
  | .sprod => 2
  | .rprod => 3
  | .train => 4
  | .test => 5
  | .rtest => 6

def Tuple.head (t : Tuple) (status : Status) (modPath modelName : Text)
    (loadNames storeNames : List Text) : Tuple :=
  ((((t.push (.int (statusCode status))).push (.str modPath)).push (.str modelName)).push
    (.int loadNames.length)).push (.int storeNames.length)

/- loadMap[name]->nmemb for each name. -/
def loadNmembs (ctx : PIContext) (loadNames : List Text) : Except Stop (List Int) :=
  loadNames.mapM (fun name => match ctx.loadMap name with
    | some pDC => .ok pDC.nmemb
    | none => .error .null)

def prodTuple (ctx : PIContext) (modelName : Text) (loadNames storeNames : List Text) :
    Except Stop Tuple := do
  let t := (Tuple.new (5 + loadNames.length * 2 + storeNames.length)).head ctx.status ctx.modPath
    modelName loadNames storeNames
  let t := t.pushAll (loadNames.map .str)
  let nmembs ← loadNmembs ctx loadNames
  let t := t.pushAll (nmembs.map .int)
  return t.pushAll (storeNames.map .str)

def Filled (t : Tuple) (size : Nat) (os : List PyObject) : Prop :=
  t.argIdx = os.length ∧ t.slots = os.map some ++ List.replicate (size - os.length) none

theorem newFilled (size : Nat) : Filled (Tuple.new size) size [] := ⟨rfl,rfl⟩

theorem pushFilled {t : Tuple} {size : Nat} {os : List PyObject} (filled : Filled t size os)
    (room : os.length < size) (o : PyObject) : Filled (t.push o) size (os ++ [o]) := by
  obtain ⟨at_,slots⟩ := filled
  refine ⟨by simp [Tuple.push,at_],?_⟩
  have more : size - os.length = (size - (os ++ [o]).length) + 1 := by
    simp only [List.length_append,List.length_singleton]; omega
  simp only [Tuple.push,at_,slots,more,List.replicate_succ]
  rw [List.set_append_right _ _ (by simp)]
  simp

theorem pushAllFilled {t : Tuple} {size : Nat} {os : List PyObject} (filled : Filled t size os)
    (new : List PyObject) (room : os.length + new.length ≤ size) :
    Filled (t.pushAll new) size (os ++ new) := by
  induction new generalizing t os with
  | nil => simpa [Tuple.pushAll] using filled
  | cons o rest ih =>
    simp only [List.length_cons] at room
    have next := pushFilled filled (by omega) o
    have whole := ih next (by simp; omega)
    simpa [Tuple.pushAll] using whole

theorem headFilled {size : Nat} (room : 5 ≤ size) (status : Status) (modPath modelName : Text)
    (loadNames storeNames : List Text) :
    Filled ((Tuple.new size).head status modPath modelName loadNames storeNames) size
      [.int (statusCode status),.str modPath,.str modelName,.int loadNames.length,
        .int storeNames.length] :=
  pushAllFilled (newFilled size) [.int (statusCode status),.str modPath,.str modelName,
    .int loadNames.length,.int storeNames.length] (by simpa using room)

theorem filledArgs {t : Tuple} {size : Nat} {os : List PyObject} (filled : Filled t size os)
    (all : os.length = size) : t.args = some os ∧ t.argIdx = t.slots.length := by
  obtain ⟨at_,slots⟩ := filled
  rw [all,Nat.sub_self,List.replicate_zero,List.append_nil] at slots
  refine ⟨?_,by rw [at_,slots,List.length_map]⟩
  rw [Tuple.args,slots]
  clear slots all at_
  induction os with
  | nil => rfl
  | cons o rest ih => simp [List.mapM_cons,ih]

def prodArgs (ctx : PIContext) (modelName : Text) (loadNames storeNames : List Text)
    (nmembs : List Int) : List PyObject :=
  [.int (statusCode ctx.status),.str ctx.modPath,.str modelName,.int loadNames.length,
    .int storeNames.length] ++ loadNames.map .str ++ nmembs.map .int ++ storeNames.map .str

theorem nmembsLength {ctx : PIContext} {loadNames : List Text} {nmembs : List Int}
    (found : loadNmembs ctx loadNames = .ok nmembs) : nmembs.length = loadNames.length := by
  induction loadNames generalizing nmembs with
  | nil => cases found; rfl
  | cons name rest ih =>
    rw [loadNmembs,List.mapM_cons] at found
    simp only [bind,Except.bind] at found
    split at found <;> try contradiction
    split at found <;> try contradiction
    rename_i tail collected
    cases found
    rw [List.length_cons,List.length_cons,ih collected]

theorem prodTupleArgs {ctx : PIContext} {modelName : Text} {loadNames storeNames : List Text}
    {t : Tuple} (built : prodTuple ctx modelName loadNames storeNames = .ok t) :
    ∃ nmembs, loadNmembs ctx loadNames = .ok nmembs ∧
      t.args = some (prodArgs ctx modelName loadNames storeNames nmembs) ∧
      t.argIdx = t.slots.length := by
  simp only [prodTuple,bind,Except.bind] at built
  split at built <;> try contradiction
  rename_i nmembs found
  cases built
  have same := nmembsLength found
  have room : 5 ≤ 5 + loadNames.length * 2 + storeNames.length := by omega
  have head := headFilled room ctx.status ctx.modPath modelName loadNames storeNames
  have loads := pushAllFilled head (loadNames.map .str)
    (by simp only [List.length_cons,List.length_nil,List.length_map]; omega)
  have sizes := pushAllFilled loads (nmembs.map .int)
    (by simp only [List.length_append,List.length_cons,List.length_nil,List.length_map]; omega)
  have whole := pushAllFilled sizes (storeNames.map .str)
    (by simp only [List.length_append,List.length_cons,List.length_nil,List.length_map]; omega)
  refine ⟨nmembs,found,filledArgs whole ?_⟩
  simp only [prodArgs,List.length_append,List.length_cons,List.length_nil,List.length_map]
  omega

theorem prodTupleBuilt {ctx : PIContext} (modelName : Text) {loadNames : List Text} (storeNames : List Text)
    (there : ∀ name ∈ loadNames, (ctx.loadMap name).isSome) :
    ∃ t, prodTuple ctx modelName loadNames storeNames = .ok t := by
  have found : ∃ nmembs, loadNmembs ctx loadNames = .ok nmembs := by
    induction loadNames with
    | nil => exact ⟨[],rfl⟩
    | cons name rest ih =>
      obtain ⟨nmembs,more⟩ := ih fun x inside => there x (List.mem_cons_of_mem _ inside)
      obtain ⟨pDC,known⟩ := Option.isSome_iff_exists.mp (there name List.mem_cons_self)
      refine ⟨pDC.nmemb :: nmembs,?_⟩
      rw [loadNmembs] at more
      rw [loadNmembs,List.mapM_cons,known]
      simp only [more,bind,Except.bind]
      rfl
  obtain ⟨nmembs,found⟩ := found
  simp only [prodTuple,found,bind,Except.bind]
  exact ⟨_,rfl⟩

theorem rangeNames {f : Nat → Except PyError Text} {names : List Text}
    (each : ∀ i name, names[i]? = some name → f i = .ok name) :
    (List.range names.length).mapM f = .ok names := by
  induction names using List.reverseRecOn with
  | nil => rfl
  | append_singleton rest name ih =>
    have before := ih (fun i x found => each i x (by
      rw [List.getElem?_append_left (List.getElem?_eq_some_iff.mp found).1,found]))
    have last : f rest.length = .ok name := each _ _ (by simp)
    rw [List.length_append,List.length_singleton,List.range_succ,List.mapM_append,before]
    simp [List.mapM_cons,last,bind,Except.bind,pure,Except.pure]

theorem argNamesAt {args before after : List PyObject} {names : List Text}
    (shape : args = before ++ names.map .str ++ after) :
    argNames args before.length names.length = .ok names := by
  refine rangeNames (fun i name found => ?_)
  have inside : args[before.length + i]? = some (.str name) := by
    have bound := (List.getElem?_eq_some_iff.mp found).1
    rw [shape,List.append_assoc,List.getElem?_append_right (by omega),
      List.getElem?_append_left (by simpa using bound)]
    simp [found]
  simp [argStr,arg,inside,bind,Except.bind]

theorem argAt {args before after : List PyObject} {o : PyObject}
    (shape : args = before ++ o :: after) : arg args before.length = .ok o := by
  simp [arg,shape]

structure Asked (args : List PyObject) (modPath modelName : Text) (loads stores : List Text)
    (nmemb : Int) : Prop where
  dir : argStr args 1 = .ok modPath
  model : argStr args 2 = .ok modelName
  loadNum : argInt args 3 = .ok (loads.length : Int)
  storeNum : argInt args 4 = .ok (stores.length : Int)
  width : argInt args (5 + loads.length) = .ok nmemb
  loadNames : argNames args 5 loads.length = .ok loads
  storeNames : argNames args (5 + loads.length * 2) stores.length = .ok stores

theorem prodAsked (ctx : PIContext) (modelName load : Text) (loads stores : List Text)
    {nmembs : List Int} {nmemb : Int} (same : nmembs.length = loads.length) :
    Asked (prodArgs ctx modelName (load :: loads) stores (nmemb :: nmembs)) ctx.modPath modelName
      (load :: loads) stores nmemb := by
  let head : List PyObject := [.int (statusCode ctx.status),.str ctx.modPath,.str modelName,
    .int (load :: loads).length,.int stores.length]
  let names : List PyObject := (load :: loads).map .str
  let sizes : List PyObject := (nmemb :: nmembs).map .int
  let args := prodArgs ctx modelName (load :: loads) stores (nmemb :: nmembs)
  have whole : args = head ++ names ++ sizes ++ stores.map .str := rfl
  refine ⟨rfl,rfl,rfl,rfl,?_,?_,?_⟩
  · have at_ : 5 + (load :: loads).length = (head ++ names).length := by
      simp only [head,names,List.length_append,List.length_map,List.length_cons,List.length_nil]
    have here := argAt (show args = (head ++ names) ++ .int nmemb ::
      (nmembs.map .int ++ stores.map .str) by rw [whole]; simp [sizes])
    change argInt args _ = _
    rw [at_,argInt,here]
    rfl
  · exact argNamesAt (show args = head ++ (load :: loads).map .str ++ (sizes ++ stores.map .str) by
      rw [whole]; simp [names])
  · have at_ : 5 + (load :: loads).length * 2 = (head ++ names ++ sizes).length := by
      simp only [head,names,sizes,List.length_append,List.length_map,List.length_cons,
        List.length_nil]
      omega
    rw [at_]
    exact argNamesAt (show args = _ ++ stores.map .str ++ [] by rw [whole,List.append_nil])

theorem singleTemplateArgs (ctx : PIContext) (modelName load : Text) (loads stores : List Text)
    {nmembs : List Int} {nmemb : Int} (same : nmembs.length = loads.length) :
    singleTemplate (prodArgs ctx modelName (load :: loads) stores (nmemb :: nmembs)) =
      .ok (singleHead ctx.modPath modelName ++ setWidths nmemb stores.length ++
        singleTail (load :: loads) stores load) := by
  have asked : Asked _ _ _ _ _ nmemb := prodAsked ctx modelName load loads stores same
  have input : argStr (prodArgs ctx modelName (load :: loads) stores (nmemb :: nmembs)) 5 =
      .ok load := rfl
  simp only [singleTemplate,asked.dir,asked.model,asked.loadNum,asked.storeNum,Int.toNat_natCast,
    asked.width,asked.loadNames,asked.storeNames,input,bind,Except.bind]
  rfl

theorem reinfTemplateArgs (ctx : PIContext) (modelName load : Text) (loads stores : List Text)
    {nmembs : List Int} {nmemb : Int} (same : nmembs.length = loads.length) :
    reinfTemplate (prodArgs ctx modelName (load :: loads) stores (nmemb :: nmembs)) =
      .ok (reinfHead ctx.modPath modelName nmemb stores.length ++
        reinfTail (load :: loads) stores) := by
  have asked : Asked _ _ _ _ _ nmemb := prodAsked ctx modelName load loads stores same
  simp only [reinfTemplate,asked.dir,asked.model,asked.loadNum,asked.storeNum,Int.toNat_natCast,
    asked.width,asked.loadNames,asked.storeNames,bind,Except.bind]
  rfl

/- PIModelManager.run of a production tuple. -/
def runProd (args : List PyObject) : PySteps Unit := do
  let op ← raises (argInt args 0)
  if op = statusCode .sprod then genModelTemplate args
  else if op = statusCode .rprod then genRModelTemplate args
  else .stop .systemExit

/- PyContext::prod. An exception of the Python side is printed and dropped. -/
def prod (ctx : PIContext) (modelName : Text) (loadNames storeNames : List Text) : Steps Unit := do
  require (ctx.status = .sprod ∨ ctx.status = .rprod)
    "piContext->status == PI_SPROD || piContext->status == PI_RPROD"
  let t ← lift (prodTuple ctx modelName loadNames storeNames)
  match t.args with
  | none => .stop .null
  | some args => do
    let _ ← (runProd args).attempt
    pure ()

/- A view of a context's data, for the types it is made for. -/
def setNNInput (pDC : DataContext) : Except Stop PyObject :=
  match pDC.tID with
  | .c | .uc | .i | .ui | .f | .d => .ok (.array pDC)
  | _ => .error (.assertion "Unknown parameter type")

/- setNNInput of map[name] for each name. -/
def inputs (map : Text → Option DataContext) (names : List Text) : Except Stop (List PyObject) :=
  names.mapM (fun name => match map name with
    | some pDC => setNNInput pDC
    | none => .error .null)

/- The tuple of PyContext::test. -/
def testTuple (ctx : PIContext) (modelName : Text) (loadNames storeNames : List Text) :
    Except Stop Tuple := do
  let t := (Tuple.new (5 + loadNames.length * 2 + storeNames.length * 2)).head ctx.status ctx.modPath
    modelName loadNames storeNames
  let t := t.pushAll (loadNames.map .str)
  let loads ← inputs ctx.loadMap loadNames
  let t := t.pushAll loads
  let t := t.pushAll (storeNames.map .str)
  let stores ← inputs ctx.storeMap storeNames
  return t.pushAll stores

def testArgs (ctx : PIContext) (modelName : Text) (loadNames storeNames : List Text)
    (loads stores : List PyObject) : List PyObject :=
  [.int (statusCode ctx.status),.str ctx.modPath,.str modelName,.int loadNames.length,
    .int storeNames.length] ++ loadNames.map .str ++ loads ++ storeNames.map .str ++ stores

def Viewed (map : Text → Option DataContext) (name : Text) (o : PyObject) : Prop :=
  ∃ pDC, map name = some pDC ∧ o = .array pDC

/- The types setNNInput makes a view for. -/
def Convertible (tID : TypeID) : Prop := tID ∈ [.c,.uc,.i,.ui,.f,.d]

theorem inputsBuilt {map : Text → Option DataContext} {names : List Text}
    (there : ∀ name ∈ names, ∃ pDC, map name = some pDC ∧ Convertible pDC.tID) : ∃ os, inputs map names = .ok os := by
  induction names with
  | nil => exact ⟨[],rfl⟩
  | cons name rest ih =>
    obtain ⟨os,built⟩ := ih fun x inside => there x (List.mem_cons_of_mem _ inside)
    obtain ⟨pDC,known,type⟩ := there name List.mem_cons_self
    have made : setNNInput pDC = .ok (.array pDC) := by
      unfold setNNInput
      simp only [Convertible,List.mem_cons,List.not_mem_nil,or_false] at type
      rcases type with same | same | same | same | same | same <;> rw [same]
    refine ⟨.array pDC :: os,?_⟩
    rw [inputs] at built
    rw [inputs,List.mapM_cons,known]
    simp only [made,built,bind,Except.bind]
    rfl

theorem inputsViewed {map : Text → Option DataContext} {names : List Text} {os : List PyObject}
    (built : inputs map names = .ok os) : List.Forall₂ (Viewed map) names os := by
  induction names generalizing os with
  | nil => cases built; exact .nil
  | cons name rest ih =>
    rw [inputs,List.mapM_cons] at built
    simp only [bind,Except.bind] at built
    split at built <;> try contradiction
    next o made =>
    split at built <;> try contradiction
    next more rested =>
    cases built
    refine .cons ?_ (ih rested)
    split at made <;> try contradiction
    next pDC known =>
    unfold setNNInput at made
    split at made <;> cases made <;> exact ⟨pDC,known,rfl⟩

theorem testTupleBuilt {ctx : PIContext} (modelName : Text) {loadNames storeNames : List Text}
    (loads : ∀ name ∈ loadNames, ∃ pDC, ctx.loadMap name = some pDC ∧ Convertible pDC.tID)
    (stores : ∀ name ∈ storeNames, ∃ pDC, ctx.storeMap name = some pDC ∧ Convertible pDC.tID) :
    ∃ t, testTuple ctx modelName loadNames storeNames = .ok t := by
  obtain ⟨os,first⟩ := inputsBuilt loads
  obtain ⟨ps,second⟩ := inputsBuilt stores
  simp only [testTuple,first,second,bind,Except.bind]
  exact ⟨_,rfl⟩

theorem testTupleArgs {ctx : PIContext} {modelName : Text} {loadNames storeNames : List Text}
    {t : Tuple} (built : testTuple ctx modelName loadNames storeNames = .ok t) :
    ∃ loads stores, List.Forall₂ (Viewed ctx.loadMap) loadNames loads ∧
      List.Forall₂ (Viewed ctx.storeMap) storeNames stores ∧
      t.args = some (testArgs ctx modelName loadNames storeNames loads stores) ∧
      t.argIdx = t.slots.length := by
  simp only [testTuple,bind,Except.bind] at built
  split at built <;> try contradiction
  next loads first =>
  split at built <;> try contradiction
  next stores second =>
  cases built
  have loadsViewed := inputsViewed first
  have storesViewed := inputsViewed second
  have sameLoads := loadsViewed.length_eq
  have sameStores := storesViewed.length_eq
  have head := headFilled (show 5 ≤ 5 + loadNames.length * 2 + storeNames.length * 2 by omega)
    ctx.status ctx.modPath modelName loadNames storeNames
  have names := pushAllFilled head (loadNames.map .str)
    (by simp only [List.length_cons,List.length_nil,List.length_map]; omega)
  have arrays := pushAllFilled names loads
    (by simp only [List.length_append,List.length_cons,List.length_nil,List.length_map]; omega)
  have more := pushAllFilled arrays (storeNames.map .str)
    (by simp only [List.length_append,List.length_cons,List.length_nil,List.length_map]; omega)
  have whole := pushAllFilled more stores
    (by simp only [List.length_append,List.length_cons,List.length_nil,List.length_map]; omega)
  refine ⟨loads,stores,loadsViewed,storesViewed,filledArgs whole ?_⟩
  simp only [testArgs,List.length_append,List.length_cons,List.length_nil,List.length_map]
  omega

end Autonomizer.PyInterface
