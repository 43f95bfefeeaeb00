import Mathlib
import Autonomizer.Footprint
import Autonomizer.PySource
import Autonomizer.RunModel

/-! Argument positions: the tuples of PyContext, the functions of the generated files,
and the call that runModel makes on them. -/
namespace Autonomizer.Positions
open Data FileIO FileSystem Footprint Format PIInc PIModelManager Process ProgIntel PyInterface PySource
open RunModel (PI_TRAIN PI_TEST Request RunOp request runOp)

/- Names that the templates can take as parameters: none of them is one that the
generated functions use themselves. -/
structure Named (loads stores : List Text) : Prop where
  distinct : (loads ++ stores).Nodup
  words : ∀ name ∈ loads ++ stores, identifier name = true
  others : ∀ name ∈ loads ++ stores,
    name ∉ ["op","tfNN","init","train","test"].map String.toList

def AllSet (t : Tuple) : Prop := t.argIdx = t.slots.length ∧ ∀ slot ∈ t.slots, slot.isSome = true

/- What a generator leaves where the model has a directory and a store file but no
model file. -/
def Generates (gen : PySteps Unit) (m text : Text) : Prop :=
  ∀ fs, fs [piDir,m] = some .dir → (fs (storePath m .one)).isSome → fs (templatePath m) = none →
    ∃ last, gen.exec handle fs = (.ok (),last) ∧ last (templatePath m) = some (.file text)

def runName : Text := "run".toList
def trainName : Text := "train".toList
def testName : Text := "test".toList

def opWord : RunOp → Text
  | .train => trainName
  | .test => testName

/- loadedMod.run(op, *inArgs) on a module with this text. -/
def runCall (text : Text) (op : RunOp) (inArgs : List PyObject) : Option (Text → Option PyObject) :=
  (functionAt runName (lines text)).bind (fun fn => fn.call (.str (opWord op) :: inArgs))

structure Binds (ctx : PIContext) (loads stores : List Text) (env : Text → Option PyObject) : Prop where
  loads : ∀ x ∈ loads, ∃ pDC, ctx.loadMap x = some pDC ∧ env x = some (.array pDC)
  stores : ∀ x ∈ stores, ∃ pDC, ctx.storeMap x = some pDC ∧ env x = some (.array pDC)

theorem commaEachAfter (names : List Text) : commaEach names = eachAfter names := rfl

theorem commaBetweenAfter (first : Text) (rest stores : List Text) :
    commaBetween (first :: rest) ++ commaEach stores = first ++ eachAfter (rest ++ stores) := by
  have between (names : List Text) (first : Text) :
      commaBetween (first :: names) = first ++ eachAfter names := by
    induction names generalizing first with
    | nil => simp [commaBetween,eachAfter]
    | cons name names ih =>
      have step : commaBetween (first :: name :: names) =
          first ++ ", ".toList ++ commaBetween (name :: names) := by
        simp [commaBetween,List.intercalate,List.intersperse]
      rw [step,ih,List.append_assoc]
      rfl
  rw [between,List.append_assoc]
  simp [eachAfter,commaEachAfter]

/- The lines of a single model's file from its function run on. -/
def singleLines (names : List Text) (input nones : Text) : List Text :=
  [defWords runName ++ ("op".toList ++ eachAfter names ++ ')' :: ":\n".toList),
    "  global tfNN\n".toList,"\n".toList,"  if tfNN == None:\n".toList,
    "    tfNN = init(op)\n".toList,"\n".toList,"  if op == 'train':\n".toList,
    "    tfNN.train()\n".toList,"  else:\n".toList,
    "    result = tfNN.test([".toList ++ input ++ "])\n".toList,"\n".toList,
    "    return result\n".toList,"\n".toList,"if __name__ == \"__main__\":\n".toList,
    "  run('train'".toList ++ nones ++ ")\n".toList]

/- The lines of a reinforcement model's file from its function train on. -/
def reinfLines (first : Text) (rest : List Text) : List Text :=
  [defWords trainName ++ (first ++ eachAfter rest ++ ')' :: ":\n".toList),
    "  global tfNN\n".toList,"  return result\n".toList,"\n".toList,
    defWords testName ++ (first ++ eachAfter rest ++ ')' :: ":\n".toList),
    "  global tfNN\n".toList,"  return result\n".toList,"\n".toList,
    defWords runName ++ ("op".toList ++ eachAfter (first :: rest) ++ ')' :: ":\n".toList),
    "  global tfNN\n".toList,"  if tfNN == None:\n".toList,"    tfNN = init()\n".toList,"\n".toList,
    "  if op == 'train':\n".toList,
    "    result = train(".toList ++ (first ++ eachAfter rest ++ ')' :: "\n".toList),
    "  else:\n".toList,
    "    result = test(".toList ++ (first ++ eachAfter rest ++ ')' :: "\n".toList),
    "  return result\n".toList,"\n".toList]

theorem twoLines (a b c : String) (split : c.toList = a.toList ++ b.toList) (rest : Text) :
    c.toList ++ rest = a.toList ++ (b.toList ++ rest) := by
  rw [split,List.append_assoc]

theorem runWords : "def run(op".toList = defWords runName ++ "op".toList := by decide

theorem closeWords : "):\n".toList = ')' :: ":\n".toList := by decide

theorem singleTailLines (loads stores : List Text) (input : Text) :
    singleTail loads stores input =
      layersText ++ "  # End NN model\n".toList ++ "  return tfNN\n\n".toList ++
        (singleLines (loads ++ stores) input (loads.flatMap (fun _ => ", None".toList) ++
          stores.flatMap (fun _ => ", None".toList))).flatten := by
  have names : commaEach loads ++ commaEach stores = eachAfter (loads ++ stores) := by
    simp [eachAfter,commaEachAfter]
  have globals := twoLines "  global tfNN\n" "\n" "  global tfNN\n\n" (by decide)
  have made := twoLines "    tfNN = init(op)\n" "\n" "    tfNN = init(op)\n\n" (by decide)
  have tested := twoLines "])\n" "\n" "])\n\n" (by decide)
  have returned := twoLines "    return result\n" "\n" "    return result\n\n" (by decide)
  unfold singleTail singleLines
  simp only [List.append_assoc,List.flatten_cons,List.flatten_nil,List.append_nil,
    ← names,globals,made,tested,returned,runWords,closeWords,List.cons_append]

theorem reinfTailLines (first : Text) (rest stores : List Text) :
    reinfTail (first :: rest) stores = (reinfLines first (rest ++ stores)).flatten := by
  have each : commaEach (first :: rest) ++ commaEach stores = eachAfter (first :: (rest ++ stores)) := by
    simp [eachAfter,commaEachAfter]
  have between := commaBetweenAfter first rest stores
  have trains : "def train(".toList = defWords trainName := by decide
  have tests : "def test(".toList = defWords testName := by decide
  have closes : ")\n".toList = ')' :: "\n".toList := by decide
  have made := twoLines "    tfNN = init()\n" "\n" "    tfNN = init()\n\n" (by decide)
  have last : "  return result\n\n".toList = "  return result\n".toList ++ "\n".toList := by decide
  have inner (more : Text) : commaBetween (first :: rest) ++ (commaEach stores ++ more) =
      first ++ (eachAfter (rest ++ stores) ++ more) := by
    rw [← List.append_assoc,between,List.append_assoc]
  have outer (more : Text) : commaEach (first :: rest) ++ (commaEach stores ++ more) =
      eachAfter (first :: (rest ++ stores)) ++ more := by
    rw [← List.append_assoc,each]
  unfold reinfTail reinfLines
  simp only [List.append_assoc,List.flatten_cons,List.flatten_nil,List.append_nil,
    inner,outer,made,last,runWords,closeWords,closes,trains,tests,List.cons_append]

theorem literalLine (line : String) (ends : line.toList.getLast? = some '\n')
    (whole : '\n' ∉ line.toList.dropLast) : OneLine line.toList := by
  obtain ⟨front,same⟩ := List.getLast?_eq_some_iff.mp ends
  refine ⟨front,same,?_⟩
  rw [same,List.dropLast_concat] at whole
  exact whole

theorem namesLine {words close : Text} {names : Text} (plain : '\n' ∉ words) (whole : '\n' ∉ names)
    (ends : ∃ front, close = front ++ ['\n'] ∧ '\n' ∉ front) : OneLine (words ++ (names ++ close)) := by
  obtain ⟨front,rfl,ending⟩ := ends
  refine ⟨words ++ (names ++ front),by simp only [List.append_assoc],?_⟩
  simp only [List.mem_append,not_or]
  exact ⟨plain,whole,ending⟩

section
variable {first : Text} {rest : List Text}

theorem eachWhole (ok : ∀ name ∈ rest, identifier name = true) : '\n' ∉ eachAfter rest :=
  eachAvoids (by decide) (fun name inside => (identifierAvoids (ok name inside)).2.2)

theorem reinfOneLine (ok : ∀ name ∈ first :: rest, identifier name = true) :
    ∀ line ∈ reinfLines first rest, OneLine line := by
  have inner : '\n' ∉ first ++ eachAfter rest := by
    rw [List.mem_append,not_or]
    exact ⟨(identifierAvoids (ok first List.mem_cons_self)).2.2,
      eachWhole (fun name inside => ok name (List.mem_cons_of_mem first inside))⟩
  have outer : '\n' ∉ "op".toList ++ eachAfter (first :: rest) := by
    rw [List.mem_append,not_or]
    exact ⟨by decide,eachWhole ok⟩
  have colon : ∃ front, ')' :: ":\n".toList = front ++ ['\n'] ∧ '\n' ∉ front :=
    ⟨[')',':'],by decide,by decide⟩
  have close : ∃ front, ')' :: "\n".toList = front ++ ['\n'] ∧ '\n' ∉ front :=
    ⟨[')'],by decide,by decide⟩
  unfold reinfLines
  simp only [List.forall_mem_cons]
  exact ⟨namesLine (by decide) inner colon,literalLine _ (by decide) (by decide),
    literalLine _ (by decide) (by decide),literalLine _ (by decide) (by decide),
    namesLine (by decide) inner colon,literalLine _ (by decide) (by decide),
    literalLine _ (by decide) (by decide),literalLine _ (by decide) (by decide),
    namesLine (by decide) outer colon,literalLine _ (by decide) (by decide),
    literalLine _ (by decide) (by decide),literalLine _ (by decide) (by decide),
    literalLine _ (by decide) (by decide),literalLine _ (by decide) (by decide),
    namesLine (by decide) inner close,literalLine _ (by decide) (by decide),
    namesLine (by decide) inner close,literalLine _ (by decide) (by decide),
    literalLine _ (by decide) (by decide),fun line inside => absurd inside List.not_mem_nil⟩

/- A line that declares nothing global but tfNN. -/
def Global (line : Text) : Prop :=
  listed "  global ".toList '\n' line = none ∨
    listed "  global ".toList '\n' line = some ["tfNN".toList]

theorem noGlobal {text : Text} {c : Char} (third : text[2]? = some c) (other : c ≠ 'g') :
    Global text :=
  .inl (listedOther 2 (by decide) (by rw [third]; exact fun same => other (Option.some.inj same)))

theorem noDef {f text : Text} {c : Char} (first : text[0]? = some c) (other : c ≠ 'd') :
    listed (defWords f) ')' text = none :=
  listedOther 0 (Nat.succ_pos _) (by rw [first]; exact fun same => other (Option.some.inj same))

theorem compilesNamed {params after : List Text} (distinct : params.Nodup)
    (words : ∀ p ∈ params, identifier p = true) (global : ∀ line ∈ after, Global line)
    (other : "tfNN".toList ∉ params) :
    (⟨params,after.takeWhile indented⟩ : PyFunction).compiles = true := by
  have local_ : ∀ p ∈ params, p ∉ (⟨params,after.takeWhile indented⟩ : PyFunction).globals := by
    intro p inside declared
    obtain ⟨names,among,member⟩ := List.mem_flatten.mp declared
    obtain ⟨line,here,found⟩ := List.mem_filterMap.mp among
    rcases global line (List.takeWhile_subset _ here) with none_ | only
    · rw [none_] at found
      cases found
    · rw [only] at found
      cases found
      exact other (List.mem_singleton.mp member ▸ inside)
  simp only [PyFunction.compiles,Bool.and_eq_true,decide_eq_true_eq,List.all_eq_true]
  exact ⟨⟨distinct,words⟩,local_⟩

theorem findLine {words line : Text} {early late : List Text} {names : List Text}
    (none_ : ∀ text ∈ early, listed words ')' text = none)
    (here : listed words ')' line = some names) :
    (early ++ line :: late).findSome? (listed words ')') = some names := by
  induction early with
  | nil => rw [List.nil_append,List.findSome?_cons,here]
  | cons text early ih =>
    rw [List.cons_append,List.findSome?_cons,none_ text List.mem_cons_self]
    exact ih (fun other inside => none_ other (List.mem_cons_of_mem text inside))

/- The parts of a reinforcement model's file around its functions. -/
def trainAfter (first : Text) (rest : List Text) : List Text := (reinfLines first rest).drop 1
def testAfter (first : Text) (rest : List Text) : List Text := (reinfLines first rest).drop 5
def runAfter (first : Text) (rest : List Text) : List Text := (reinfLines first rest).drop 9

theorem runAfterNone (f : Text) : ∀ line ∈ runAfter first rest, listed (defWords f) ')' line = none := by
  simp only [runAfter,reinfLines,List.drop_succ_cons,List.drop_zero,List.forall_mem_cons]
  exact ⟨noDef rfl (by decide),noDef rfl (by decide),noDef rfl (by decide),noDef rfl (by decide),
    noDef rfl (by decide),noDef rfl (by decide),noDef rfl (by decide),noDef rfl (by decide),
    noDef rfl (by decide),noDef rfl (by decide),fun line inside => absurd inside List.not_mem_nil⟩

theorem reinfGlobal : ∀ line ∈ reinfLines first rest, Global line := by
  simp only [reinfLines,List.forall_mem_cons]
  exact ⟨noGlobal rfl (by decide),.inr (by decide),noGlobal rfl (by decide),.inl (by decide),
    noGlobal rfl (by decide),.inr (by decide),noGlobal rfl (by decide),.inl (by decide),
    noGlobal rfl (by decide),.inr (by decide),noGlobal rfl (by decide),noGlobal rfl (by decide),
    .inl (by decide),noGlobal rfl (by decide),noGlobal rfl (by decide),noGlobal rfl (by decide),
    noGlobal rfl (by decide),noGlobal rfl (by decide),.inl (by decide),
    fun line inside => absurd inside List.not_mem_nil⟩

theorem runIndented : (runAfter first rest).takeWhile indented = runAfter first rest := by
  refine List.takeWhile_eq_self_iff.mpr ?_
  simp only [runAfter,reinfLines,List.drop_succ_cons,List.drop_zero,List.forall_mem_cons]
  exact ⟨rfl,rfl,rfl,rfl,rfl,rfl,rfl,rfl,rfl,rfl,fun line inside => absurd inside List.not_mem_nil⟩

theorem testAfterNone : ∀ line ∈ testAfter first rest, listed (defWords testName) ')' line = none := by
  have split : testAfter first rest = (testAfter first rest).take 4 ++ runAfter first rest := rfl
  rw [split,List.forall_mem_append]
  refine ⟨?_,runAfterNone testName⟩
  simp only [testAfter,reinfLines,List.drop_succ_cons,List.drop_zero,List.take_succ_cons,
    List.take_zero,List.forall_mem_cons]
  exact ⟨noDef rfl (by decide),noDef rfl (by decide),noDef rfl (by decide),
    listedOther 4 (by decide) (by show some 'r' ≠ some 't'; decide),
    fun line inside => absurd inside List.not_mem_nil⟩

theorem trainAfterNone :
    ∀ line ∈ trainAfter first rest, listed (defWords trainName) ')' line = none := by
  have split : trainAfter first rest = (trainAfter first rest).take 8 ++ runAfter first rest := rfl
  rw [split,List.forall_mem_append]
  refine ⟨?_,runAfterNone trainName⟩
  simp only [trainAfter,reinfLines,List.drop_succ_cons,List.drop_zero,List.take_succ_cons,
    List.take_zero,List.forall_mem_cons]
  exact ⟨noDef rfl (by decide),noDef rfl (by decide),noDef rfl (by decide),
    listedOther 5 (by decide) (by show some 'e' ≠ some 'r'; decide),
    noDef rfl (by decide),noDef rfl (by decide),noDef rfl (by decide),
    listedOther 4 (by decide) (by show some 'r' ≠ some 't'; decide),
    fun line inside => absurd inside List.not_mem_nil⟩

/- The functions of a reinforcement model's file. -/
structure ReinfFunctions (file : List Text) (first : Text) (rest : List Text) : Prop where
  run : functionAt runName file =
    some ⟨"op".toList :: first :: rest,(runAfter first rest).takeWhile indented⟩
  train : functionAt trainName file =
    some ⟨first :: rest,(trainAfter first rest).takeWhile indented⟩
  test : functionAt testName file =
    some ⟨first :: rest,(testAfter first rest).takeWhile indented⟩

theorem reinfFunctions {head : Text} (ends : head.getLast? = some '\n')
    (ok : ∀ name ∈ first :: rest, identifier name = true) :
    ReinfFunctions (lines (head ++ (reinfLines first rest).flatten)) first rest := by
  have all : ∀ name ∈ "op".toList :: first :: rest, identifier name = true := by
    intro name inside
    rcases List.mem_cons.mp inside with rfl | later
    · decide
    · exact ok name later
  rw [linesAfter ends (reinfOneLine ok)]
  constructor
  · have split : lines head ++ reinfLines first rest =
        (lines head ++ (reinfLines first rest).take 8) ++
          (defWords runName ++ ("op".toList ++ eachAfter (first :: rest) ++ ')' :: ":\n".toList)) ::
            runAfter first rest := by
      rw [List.append_assoc]
      rfl
    rw [split]
    exact functionLine (listedNames all) (functionNone (runAfterNone runName))
  · exact functionLine (listedNames ok) (functionNone trainAfterNone)
  · have split : lines head ++ reinfLines first rest =
        (lines head ++ (reinfLines first rest).take 4) ++
          (defWords testName ++ (first ++ eachAfter rest ++ ')' :: ":\n".toList)) ::
            testAfter first rest := by
      rw [List.append_assoc]
      rfl
    rw [split]
    exact functionLine (listedNames ok) (functionNone testAfterNone)

theorem reinfArgs {g : Text} (known : g = trainName ∨ g = testName)
    (other : g ∉ "op".toList :: first :: rest)
    (ok : ∀ name ∈ first :: rest, identifier name = true) :
    PyFunction.argsOf ⟨"op".toList :: first :: rest,(runAfter first rest).takeWhile indented⟩ g =
      some (first :: rest) := by
  rw [PyFunction.argsOf,if_neg other,runIndented]
  have early : (runAfter first rest).take 5 = ["  global tfNN\n","  if tfNN == None:\n",
      "    tfNN = init()\n","\n","  if op == 'train':\n"].map String.toList := rfl
  rcases known with rfl | rfl
  · have split : runAfter first rest = (runAfter first rest).take 5 ++
        ("    result = train(".toList ++ (first ++ eachAfter rest ++ ')' :: "\n".toList)) ::
          (runAfter first rest).drop 6 := rfl
    have words : "    result = ".toList ++ trainName ++ "(".toList =
        "    result = train(".toList := by decide
    rw [split,words]
    refine findLine ?_ (listedNames ok)
    rw [early]
    decide
  · have split : runAfter first rest = (runAfter first rest).take 7 ++
        ("    result = test(".toList ++ (first ++ eachAfter rest ++ ')' :: "\n".toList)) ::
          (runAfter first rest).drop 8 := rfl
    have before : (runAfter first rest).take 7 = (runAfter first rest).take 5 ++
        [("    result = train(".toList ++ (first ++ eachAfter rest ++ ')' :: "\n".toList)),
          "  else:\n".toList] := rfl
    have words : "    result = ".toList ++ testName ++ "(".toList =
        "    result = test(".toList := by decide
    rw [split,words]
    refine findLine ?_ (listedNames ok)
    rw [before,early,List.forall_mem_append,List.forall_mem_cons,List.forall_mem_singleton]
    exact ⟨by decide,listedOther 14 (by decide) (by show some 'r' ≠ some 'e'; decide),by decide⟩

theorem singleFunction {head input nones : Text} {names : List Text}
    (ends : head.getLast? = some '\n') (ok : ∀ name ∈ names, identifier name = true)
    (inputWhole : '\n' ∉ input) (nonesWhole : '\n' ∉ nones) :
    functionAt runName (lines (head ++ (singleLines names input nones).flatten)) =
      some ⟨"op".toList :: names,((singleLines names input nones).drop 1).takeWhile indented⟩ ∧
    ∀ line ∈ (singleLines names input nones).drop 1, Global line := by
  have all : ∀ name ∈ "op".toList :: names, identifier name = true := by
    intro name inside
    rcases List.mem_cons.mp inside with rfl | later
    · decide
    · exact ok name later
  have outer : '\n' ∉ "op".toList ++ eachAfter names := by
    rw [List.mem_append,not_or]
    exact ⟨by decide,eachWhole ok⟩
  have each : ∀ line ∈ singleLines names input nones, OneLine line := by
    simp only [singleLines,List.forall_mem_cons,List.append_assoc]
    refine ⟨?_,literalLine _ (by decide) (by decide),literalLine _ (by decide) (by decide),
      literalLine _ (by decide) (by decide),literalLine _ (by decide) (by decide),
      literalLine _ (by decide) (by decide),literalLine _ (by decide) (by decide),
      literalLine _ (by decide) (by decide),literalLine _ (by decide) (by decide),
      namesLine (by decide) inputWhole ⟨"])".toList,by decide,by decide⟩,
      literalLine _ (by decide) (by decide),literalLine _ (by decide) (by decide),
      literalLine _ (by decide) (by decide),literalLine _ (by decide) (by decide),
      namesLine (by decide) nonesWhole ⟨")".toList,by decide,by decide⟩,
      fun line inside => absurd inside List.not_mem_nil⟩
    rw [← List.append_assoc "op".toList]
    exact namesLine (by decide) outer ⟨"):".toList,by decide,by decide⟩
  rw [linesAfter ends each]
  constructor
  · refine functionLine (listedNames all) (functionNone ?_)
    simp only [List.forall_mem_cons]
    exact ⟨noDef rfl (by decide),noDef rfl (by decide),noDef rfl (by decide),noDef rfl (by decide),
      noDef rfl (by decide),noDef rfl (by decide),noDef rfl (by decide),noDef rfl (by decide),
      noDef rfl (by decide),noDef rfl (by decide),noDef rfl (by decide),noDef rfl (by decide),
      noDef rfl (by decide),noDef rfl (by decide),fun line inside => absurd inside List.not_mem_nil⟩
  · simp only [singleLines,List.drop_succ_cons,List.drop_zero,List.forall_mem_cons]
    exact ⟨.inr (by decide),.inl (by decide),noGlobal rfl (by decide),noGlobal rfl (by decide),
      .inl (by decide),noGlobal rfl (by decide),noGlobal rfl (by decide),noGlobal rfl (by decide),
      noGlobal rfl (by decide),.inl (by decide),noGlobal rfl (by decide),.inl (by decide),
      noGlobal rfl (by decide),noGlobal rfl (by decide),fun line inside => absurd inside List.not_mem_nil⟩

end

theorem testRequest (ctx : PIContext) (m : Text) {loads stores : List Text} {os ps : List PyObject}
    (sameLoads : loads.length = os.length) :
    request (testArgs ctx m loads stores os ps) = .ok ⟨statusCode ctx.status,m,os ++ ps⟩ := by
  let head : List PyObject := [.int (statusCode ctx.status),.str ctx.modPath,.str m,
    .int loads.length,.int stores.length]
  let names : List PyObject := loads.map .str
  let more : List PyObject := stores.map .str
  let args := testArgs ctx m loads stores os ps
  have whole : args = head ++ names ++ os ++ more ++ ps := rfl
  have five : head.length = 5 := rfl
  have first : (args.drop (5 + loads.length)).take loads.length = os := by
    have at_ : 5 + loads.length = (head ++ names).length := by
      simp only [five,names,List.length_append,List.length_map]
    rw [whole,at_,List.append_assoc,List.append_assoc,List.drop_left,sameLoads,List.take_left]
  have second : args.drop (5 + loads.length * 2 + stores.length) = ps := by
    have at_ : 5 + loads.length * 2 + stores.length = (head ++ names ++ os ++ more).length := by
      simp only [five,names,more,List.length_append,List.length_map]
      omega
    rw [whole,at_,List.drop_left]
  have loadNum : argInt args 3 = .ok (loads.length : Int) := rfl
  have storeNum : argInt args 4 = .ok (stores.length : Int) := rfl
  have status : argInt args 0 = .ok (statusCode ctx.status) := rfl
  have dir : arg args 1 = .ok (.str ctx.modPath) := rfl
  have model : argStr args 2 = .ok m := rfl
  change request args = _
  simp only [request,status,dir,model,loadNum,storeNum,Int.toNat_natCast,first,second,bind,
    Except.bind]
  rfl

theorem writeModelExec {fs : FS} (path : Path) (parent : fs path.dropLast = some .dir)
    (absent : fs path = none) (text : Text) :
    ∃ last, (writeModel path (.ok text)).exec handle fs = (.ok (),last) ∧
      last path = some (.file text) := by
  refine ⟨_,by simp [writeModel,perform,raises,Prog.exec,handle,absent,make,lookupParent,parent]; rfl,?_⟩
  simp

section
variable {args : List PyObject} {modPath m text : Text} {loads stores : List Text} {nmemb : Int}

theorem missingTemplate {fs : FS} (absent : fs (templatePath m) = none) :
    handle (.isfile (templatePath m)) fs = (.enoent,fs) := by
  simp only [handle,absent]

theorem genModelGenerates (asked : Asked args modPath m loads stores nmemb)
    (made : singleTemplate args = .ok text) : Generates (genModelTemplate args) m text := by
  intro fs dir store absent
  obtain ⟨last,done,left⟩ := writeModelExec (templatePath m) dir absent text
  refine ⟨last,?_,left⟩
  have opened : handle (.opens [piDir,m,oneStore m]) fs = (.ok,fs) := by
    change ((if (fs (storePath m .one)).isSome then Reply.ok else .enoent),fs) = _
    rw [if_pos store]
  have missing : handle (.isfile [piDir,m,m ++ ".py".toList]) fs = (.enoent,fs) :=
    missingTemplate absent
  simp only [genModelTemplate,asked.dir,asked.model,asked.loadNum,made,raises,Prog.pureBind,perform,
    Prog.callBind,Prog.retBind,Prog.exec,opened,missing]
  exact done

theorem genRModelGenerates (asked : Asked args modPath m loads stores nmemb)
    (made : reinfTemplate args = .ok text) : Generates (genRModelTemplate args) m text := by
  intro fs dir store absent
  obtain ⟨last,done,left⟩ := writeModelExec (templatePath m) dir absent text
  refine ⟨last,?_,left⟩
  have missing : handle (.isfile [piDir,m,m ++ ".py".toList]) fs = (.enoent,fs) :=
    missingTemplate absent
  simp only [genRModelTemplate,asked.model,made,raises,Prog.pureBind,perform,Prog.callBind,
    Prog.retBind,Prog.exec,missing]
  exact done

end

theorem argsSet {t : Tuple} {os : List PyObject} (filled : t.args = some os) :
    ∀ slot ∈ t.slots, slot.isSome = true := by
  unfold Tuple.args at filled
  revert os
  induction t.slots with
  | nil => exact fun _ slot inside => absurd inside List.not_mem_nil
  | cons slot rest ih =>
    intro os filled
    rw [List.mapM_cons] at filled
    cases slot with
    | none => cases filled
    | some o =>
      cases more : rest.mapM id with
      | none => rw [more] at filled; cases filled
      | some values => exact List.forall_mem_cons.mpr ⟨rfl,ih more⟩

section
variable {ctx : PIContext} {loads stores : List Text} {os ps : List PyObject}

/- The array that a parameter of a name is to get. -/
def Own (ctx : PIContext) (loads stores : List Text) (x : Text) (o : PyObject) : Prop :=
  (x ∈ loads → Viewed ctx.loadMap x o) ∧ (x ∈ stores → Viewed ctx.storeMap x o)

theorem ownRows (distinct : (loads ++ stores).Nodup)
    (loaded : List.Forall₂ (Viewed ctx.loadMap) loads os)
    (stored : List.Forall₂ (Viewed ctx.storeMap) stores ps) :
    List.Forall₂ (Own ctx loads stores) (loads ++ stores) (os ++ ps) := by
  have apart := List.disjoint_of_nodup_append distinct
  have first := (List.forall₂_and_left (p := (· ∈ loads)) loads os).mpr ⟨fun _ inside => inside,loaded⟩
  have second := (List.forall₂_and_left (p := (· ∈ stores)) stores ps).mpr ⟨fun _ inside => inside,stored⟩
  refine List.rel_append (first.imp ?_) (second.imp ?_)
  · exact fun x o ⟨inside,viewed⟩ => ⟨fun _ => viewed,fun other => absurd other (apart inside)⟩
  · exact fun x o ⟨inside,viewed⟩ => ⟨fun other => absurd inside (apart other),fun _ => viewed⟩

theorem bindsOwn (named : Named loads stores) {after : List Text} {o : PyObject}
    (global : ∀ line ∈ after, Global line)
    (rows : List.Forall₂ (Own ctx loads stores) (loads ++ stores) (os ++ ps)) :
    ∃ env, (⟨"op".toList :: (loads ++ stores),after.takeWhile indented⟩ : PyFunction).call
      (o :: (os ++ ps)) = some env ∧ Binds ctx loads stores env := by
  have other (name : String) (known : name ∈ ["op","tfNN","init","train","test"]) :
      name.toList ∉ loads ++ stores := fun inside =>
    named.others _ inside (List.mem_map_of_mem known)
  have noOp := other "op" (by decide)
  have compiles : (⟨"op".toList :: (loads ++ stores),after.takeWhile indented⟩ : PyFunction).compiles =
      true := compilesNamed
    (List.nodup_cons.mpr ⟨noOp,named.distinct⟩)
    (List.forall_mem_cons.mpr ⟨by decide,named.words⟩) global
    (fun inside => (List.mem_cons.mp inside).elim (by decide) (other "tfNN" (by decide)))
  have op : Own ctx loads stores "op".toList o :=
    ⟨fun inside => absurd (List.mem_append_left _ inside) noOp,
      fun inside => absurd (List.mem_append_right _ inside) noOp⟩
  obtain ⟨env,called,binds⟩ := callBinds compiles (.cons op rows)
  refine ⟨env,called,fun x inside => ?_,fun x inside => ?_⟩
  · obtain ⟨v,bound,own⟩ := binds x (List.mem_cons_of_mem _ (List.mem_append_left _ inside))
    obtain ⟨pDC,known,rfl⟩ := own.1 inside
    exact ⟨pDC,known,bound⟩
  · obtain ⟨v,bound,own⟩ := binds x (List.mem_cons_of_mem _ (List.mem_append_right _ inside))
    obtain ⟨pDC,known,rfl⟩ := own.2 inside
    exact ⟨pDC,known,bound⟩

end

theorem namesValues {env : Text → Option PyObject} {names : List Text}
    (bound : ∀ x ∈ names, ∃ v, env x = some v) : ∃ values, names.mapM env = some values ∧
      List.Forall₂ (fun x v => env x = some v) names values := by
  induction names with
  | nil => exact ⟨[],rfl,.nil⟩
  | cons x rest ih =>
    obtain ⟨v,here⟩ := bound x List.mem_cons_self
    obtain ⟨values,more,rows⟩ := ih (fun y inside => bound y (List.mem_cons_of_mem x inside))
    exact ⟨v :: values,by rw [List.mapM_cons,here,more]; rfl,.cons here rows⟩

theorem bindsAll {ctx : PIContext} {loads stores : List Text} {env : Text → Option PyObject}
    (binds : Binds ctx loads stores env) : ∀ x ∈ loads ++ stores, ∃ v, env x = some v := by
  intro x inside
  rcases List.mem_append.mp inside with load | store
  · obtain ⟨pDC,_,bound⟩ := binds.loads x load
    exact ⟨_,bound⟩
  · obtain ⟨pDC,_,bound⟩ := binds.stores x store
    exact ⟨_,bound⟩

theorem innerSame {file : List Text} {first : Text} {rest : List Text} {g : Text}
    {env : Text → Option PyObject} (functions : ReinfFunctions file first rest)
    (known : g ∈ [trainName,testName]) (distinct : (first :: rest).Nodup)
    (words : ∀ name ∈ first :: rest, identifier name = true)
    (others : ∀ name ∈ ["op","tfNN","init","train","test"].map String.toList, name ∉ first :: rest)
    (bound : ∀ x ∈ first :: rest, ∃ v, env x = some v) :
    ∃ inner, innerCall file runName g env = some inner ∧ ∀ x ∈ first :: rest, inner x = env x := by
  have member : g ∈ ["op","tfNN","init","train","test"].map String.toList :=
    List.mem_of_mem_drop (i := 3) known
  have cases_ : g = trainName ∨ g = testName := by simpa using known
  have noTf := others "tfNN".toList (by decide)
  have hidden : g ∉ "op".toList :: first :: rest := fun inside => by
    rcases List.mem_cons.mp inside with rfl | later
    · revert known; decide
    · exact others g member later
  obtain ⟨values,evaluated,rows⟩ := namesValues bound
  have subset (n : Nat) : ∀ line ∈ (reinfLines first rest).drop n, Global line :=
    fun line inside => reinfGlobal line (List.mem_of_mem_drop inside)
  have target : ∃ fn : PyFunction, functionAt g file = some fn ∧ fn.params = first :: rest ∧
      fn.compiles = true := by
    rcases cases_ with rfl | rfl
    · exact ⟨_,functions.train,rfl,compilesNamed distinct words (subset 1) noTf⟩
    · exact ⟨_,functions.test,rfl,compilesNamed distinct words (subset 5) noTf⟩
  obtain ⟨fn,found,params,compiles⟩ := target
  rw [← params] at rows
  obtain ⟨inner,called,binds⟩ := callBinds compiles rows
  refine ⟨inner,?_,fun x inside => ?_⟩
  · simp only [innerCall,functions.run,reinfArgs cases_ hidden words,evaluated,found,called,
      Option.bind_eq_bind,Option.bind_some]
  · obtain ⟨v,here,same⟩ := binds x (params ▸ inside)
    rw [here,same]

theorem headEnds (front : Text) : (front ++ "  return tfNN\n\n".toList).getLast? = some '\n' := by
  rw [List.getLast?_append]
  rfl

theorem nonesWhole (names : List Text) : '\n' ∉ names.flatMap (fun _ => ", None".toList) := by
  intro inside
  obtain ⟨_,_,here⟩ := List.mem_flatMap.mp inside
  revert here
  decide

section
variable {ctx later : PIContext} {m modPath load : Text} {loads stores : List Text}
  {os ps : List PyObject}

theorem singleBinds (named : Named (load :: loads) stores) (nmemb : Int) (op : RunOp)
    (rows : List.Forall₂ (Own later (load :: loads) stores) ((load :: loads) ++ stores) (os ++ ps)) :
    ∃ env, runCall (singleHead modPath m ++ setWidths nmemb stores.length ++
        singleTail (load :: loads) stores load) op (os ++ ps) = some env ∧
      Binds later (load :: loads) stores env := by
  let nones := (load :: loads).flatMap (fun _ => ", None".toList) ++
    stores.flatMap (fun _ => ", None".toList)
  let front := singleHead modPath m ++ setWidths nmemb stores.length ++ (layersText ++
    "  # End NN model\n".toList)
  have shape : singleHead modPath m ++ setWidths nmemb stores.length ++
      singleTail (load :: loads) stores load =
      front ++ "  return tfNN\n\n".toList ++
        (singleLines ((load :: loads) ++ stores) load nones).flatten := by
    rw [singleTailLines]
    simp only [front,nones,List.append_assoc]
  have whole : '\n' ∉ nones := by
    rw [List.mem_append,not_or]
    exact ⟨nonesWhole _,nonesWhole _⟩
  have word := named.words load (List.mem_append_left _ List.mem_cons_self)
  obtain ⟨found,global⟩ := singleFunction (headEnds front) named.words
    (identifierAvoids word).2.2 whole
  rw [shape,runCall,found]
  exact bindsOwn named global rows

theorem reinfBinds (named : Named (load :: loads) stores) (nmemb : Int) (op : RunOp)
    (rows : List.Forall₂ (Own later (load :: loads) stores) ((load :: loads) ++ stores) (os ++ ps)) :
    ∃ env, runCall (reinfHead modPath m nmemb stores.length ++ reinfTail (load :: loads) stores) op
        (os ++ ps) = some env ∧ Binds later (load :: loads) stores env ∧
      ∀ g ∈ [trainName,testName], ∃ inner,
        innerCall (lines (reinfHead modPath m nmemb stores.length ++
          reinfTail (load :: loads) stores)) runName g env = some inner ∧
        ∀ x ∈ (load :: loads) ++ stores, inner x = env x := by
  have functions : ReinfFunctions (lines (reinfHead modPath m nmemb stores.length ++
      reinfTail (load :: loads) stores)) load (loads ++ stores) := by
    rw [reinfTailLines]
    exact reinfFunctions (headEnds _) named.words
  have global : ∀ line ∈ runAfter load (loads ++ stores), Global line :=
    fun line inside => reinfGlobal line (List.mem_of_mem_drop inside)
  obtain ⟨env,called,binds⟩ := bindsOwn (o := .str (opWord op)) named global rows
  refine ⟨env,by rw [runCall,functions.run]; exact called,binds,fun g known => ?_⟩
  exact innerSame functions known named.distinct named.words
    (fun name member inside => named.others name inside member) (bindsAll binds)

end

/- The tuples of prod and test for the same lists are filled once in each slot; what
runModel passes on to the generated run binds each name to the array of its data
context, and the generated run of a reinforcement model passes each on under its name. -/
theorem positionsAgree {ctx later : PIContext} {m : Text} {loads stores : List Text}
    (someLoads : loads ≠ []) (named : Named loads stores)
    (loaded : ∀ x ∈ loads, (ctx.loadMap x).isSome)
    (status : later.status = .train ∨ later.status = .test)
    (given : ∀ x ∈ loads, ∃ pDC, later.loadMap x = some pDC ∧ Convertible pDC.tID)
    (kept : ∀ x ∈ stores, ∃ pDC, later.storeMap x = some pDC ∧ Convertible pDC.tID) :
    ∃ t u, prodTuple ctx m loads stores = .ok t ∧ testTuple later m loads stores = .ok u ∧
    AllSet t ∧ AllSet u ∧ ∃ args inputs r op, t.args = some args ∧ u.args = some inputs ∧
      request inputs = .ok r ∧ r.modelName = m ∧ runOp r.op = some op ∧
      (∃ text, Generates (genModelTemplate args) m text ∧
        ∃ env, runCall text op r.inArgs = some env ∧ Binds later loads stores env) ∧
      ∃ text, Generates (genRModelTemplate args) m text ∧
        ∃ env, runCall text op r.inArgs = some env ∧ Binds later loads stores env ∧
          ∀ g ∈ [trainName,testName], ∃ inner, innerCall (lines text) runName g env = some inner ∧
            ∀ x ∈ loads ++ stores, inner x = env x := by
  obtain ⟨t,built⟩ := prodTupleBuilt m stores loaded
  obtain ⟨u,called⟩ := testTupleBuilt m given kept
  obtain ⟨load,loads,rfl⟩ := List.exists_cons_of_ne_nil someLoads
  obtain ⟨nmembs,found,args,end_⟩ := prodTupleArgs built
  obtain ⟨os,ps,loaded,stored,inputs,stop⟩ := testTupleArgs called
  have same := nmembsLength found
  obtain ⟨nmemb,nmembs,rfl⟩ := List.exists_cons_of_length_eq_add_one same
  have asked : Asked _ ctx.modPath m (load :: loads) stores nmemb :=
    prodAsked ctx m load loads stores (Nat.succ.inj same)
  have rows := ownRows named.distinct loaded stored
  obtain ⟨op,does⟩ : ∃ op, runOp (statusCode later.status) = some op := by
    rcases status with train | test
    · exact ⟨.train,by rw [train]; rfl⟩
    · exact ⟨.test,by rw [test]; rfl⟩
  refine ⟨t,u,built,called,⟨end_,argsSet args⟩,⟨stop,argsSet inputs⟩,_,_,_,op,args,inputs,
    testRequest later m loaded.length_eq,rfl,does,⟨_,genModelGenerates asked
      (singleTemplateArgs ctx m load loads stores (Nat.succ.inj same)),singleBinds named nmemb op rows⟩,
    _,genRModelGenerates asked (reinfTemplateArgs ctx m load loads stores (Nat.succ.inj same)),
    reinfBinds named nmemb op rows⟩

def fewDC (tID : TypeID) : DataContext := ⟨tID,1,1,true,[]⟩

def fewContext (status : Status) : PIContext where
  status := status
  trainNum := 1
  trainIt := 0
  validNum := 0
  validIt := 0
  loadMap := fun x => if x = "a".toList then some (fewDC .i)
    else if x = "b".toList then some (fewDC .d) else none
  storeMap := fun x => if x = "y".toList then some (fewDC .f) else none
  storeModelMap := fun _ => none
  memory := ⟨fun _ => none,1⟩
  modPath := "py".toList

theorem positionsOfFew : ∃ t u, prodTuple (fewContext .sprod) "m".toList ["a".toList,"b".toList]
      ["y".toList] = .ok t ∧
    testTuple (fewContext .test) "m".toList ["a".toList,"b".toList] ["y".toList] = .ok u ∧
    AllSet t ∧ AllSet u := by
  have named : Named ["a".toList,"b".toList] ["y".toList] :=
    ⟨by decide,by decide,by decide⟩
  have loads (status : Status) : ∀ x ∈ ["a".toList,"b".toList],
      ∃ pDC, (fewContext status).loadMap x = some pDC ∧ Convertible pDC.tID := by
    intro x inside
    rcases List.mem_pair.mp inside with rfl | rfl
    · exact ⟨fewDC .i,rfl,by simp [Convertible,fewDC]⟩
    · exact ⟨fewDC .d,rfl,by simp [Convertible,fewDC]⟩
  have stores : ∀ x ∈ ["y".toList], ∃ pDC, (fewContext .test).storeMap x = some pDC ∧ Convertible pDC.tID := by
    intro x inside
    cases List.mem_singleton.mp inside
    exact ⟨fewDC .f,rfl,by simp [Convertible,fewDC]⟩
  obtain ⟨t,u,built,called,first,second,_⟩ := positionsAgree (m := "m".toList) (by decide) named
    (fun x inside => (loads .sprod x inside).elim fun pDC known => Option.isSome_iff_exists.mpr ⟨pDC,known.1⟩)
    (.inr rfl) (loads .test) stores
  exact ⟨t,u,built,called,first,second⟩

end Autonomizer.Positions
