import Mathlib
import Autonomizer.Binary64
import Autonomizer.KeepFirst

/-! DySt2Fin.py: the dependency roots of a static file, filtered by the .dy files, and the
internal data printed for each root that is no input. A dict is the list of its items;
Python does not say in which order it holds them. -/
namespace Autonomizer.DySt2Fin
open Binary64 Format KeepFirst

inductive PyError where
  | indexError
  | assertionError
  deriving DecidableEq, Repr

structure Dep where
  funcName : Text
  varName : Text
  varType : Text
  inst : Text
  deriving DecidableEq, Repr

def Dep.getFullName (d : Dep) : Text := d.funcName ++ ':' :: d.varName

def Dep.dump (d : Dep) : Text :=
  d.funcName ++ ':' :: (d.varName ++ ':' :: (d.varType ++ ':' :: d.inst))

/- line.strip()[1:-1].split(':'). -/
def fields (line : Text) : List Text := (((strip line).drop 1).dropLast).splitOn ':'

def Dep.parse (depStr : Text) : Except PyError Dep :=
  match fields depStr with
  | funcName :: varName :: varType :: inst :: _ => .ok ⟨funcName,varName,varType,inst⟩
  | _ => .error .indexError

def names (deps : List Dep) : List Text := deps.map Dep.getFullName

structure DepRoot where
  varFunc : Text
  varName : Text
  isInput : Text
  staticDep : List Dep
  dynamicDep : List Dep
  internalData : List Dep
  deriving DecidableEq, Repr

def DepRoot.parse (line : Text) : Except PyError DepRoot :=
  match fields line with
  | _ :: varFunc :: varName :: isInput :: _ => .ok ⟨varFunc,varName,isInput,[],[],[]⟩
  | _ => .error .indexError

def DepRoot.addStaticDep (r : DepRoot) (dep : Dep) : Except PyError DepRoot :=
  if dep.getFullName ∈ names r.staticDep then .error .assertionError
  else .ok { r with staticDep := r.staticDep ++ [dep] }

def DepRoot.addDynamicDep (r : DepRoot) (dep : Dep) : Except PyError DepRoot :=
  if dep.getFullName ∈ names r.dynamicDep then .error .assertionError
  else .ok { r with dynamicDep := r.dynamicDep ++ [dep] }

/- Filter out static dependencies by inspecting dynamic dependency. -/
def DepRoot.filter (r : DepRoot) : DepRoot :=
  if r.staticDep.length = 0 then { r with staticDep := r.dynamicDep }
  else { r with staticDep := r.staticDep.filter (fun d => d.getFullName ∈ names r.dynamicDep) }

/- The lines of a .dy file up to the first that raises. -/
def addDynamicLines (r : DepRoot) : List Text → DepRoot
  | [] => r
  | line :: rest =>
      match Dep.parse line with
      | .error _ => r
      | .ok dep => match r.addDynamicDep dep with
        | .error _ => r
        | .ok r => addDynamicLines r rest

def addDynamicDeps (dyFiles : Text → Option Text) (r : DepRoot) : DepRoot :=
  match dyFiles (r.varName ++ ".dy".toList) with
  | none => r
  | some text => addDynamicLines r (lines text)

def getUsefulInternalData (inputDepRoots nonInputDepRoots : List DepRoot) : List DepRoot :=
  let iDepDict := inputDepRoots.foldl (fun dict iDepRoot =>
    iDepRoot.staticDep.foldl (add Dep.getFullName) dict) []
  nonInputDepRoots.map fun niDepRoot =>
    let iDepDictCopy := niDepRoot.staticDep.foldl (fun copy item =>
      copy.filter (fun d => d.getFullName ≠ item.getFullName)) iDepDict
    { niDepRoot with internalData := iDepDictCopy }

def inLine (part : String) (line : Text) : Bool := decide (part.toList <:+: line)

/- inputDepRoot and nonInputDepRoot. -/
structure Found where
  inputDepRoot : List DepRoot
  nonInputDepRoot : List DepRoot
  deriving DecidableEq, Repr

def Found.append (found : Found) (r : DepRoot) : Found :=
  if r.isInput = "INPUT".toList then { found with inputDepRoot := found.inputDepRoot ++ [r] }
  else { found with nonInputDepRoot := found.nonInputDepRoot ++ [r] }

/- The two loops over one file: the inner one has a root whose block has begun. -/
def readStatic (dyFiles : Text → Option Text) : Option DepRoot → Found → List Text →
    Except PyError Found
  | none,found,[] => .ok found
  | some r,found,[] => .ok (found.append r)
  -- skip useless lines
  | none,found,line :: rest =>
      if ¬ inLine "Begin DepRoot" line then readStatic dyFiles none found rest
      else do
        let r ← DepRoot.parse line
        readStatic dyFiles (some r) found rest
  | some r,found,line :: rest =>
      if inLine "End DepRoot" line then
        readStatic dyFiles none (found.append (addDynamicDeps dyFiles r).filter) rest
      else do
        let dep ← Dep.parse line
        let r ← r.addStaticDep dep
        readStatic dyFiles (some r) found rest

def DepRoot.header (r : DepRoot) : Text :=
  "[Dependency root]".toList ++ r.varFunc ++ ':' :: (r.varName ++ ':' :: r.isInput)

def DepRoot.dumpUsefulInternalData (r : DepRoot) : List Text :=
  [r.header,"[Useful internal data]".toList] ++ r.internalData.map Dep.dump ++ [[]]

def DepRoot.dump (r : DepRoot) : List Text :=
  [r.header,"[Dependents]".toList] ++ r.staticDep.map Dep.dump ++ [[]]

def main (dyFiles : Text → Option Text) (static : Text) : Except PyError (List Text) := do
  let found ← readStatic dyFiles none ⟨[],[]⟩ (lines static)
  return (getUsefulInternalData found.inputDepRoot found.nonInputDepRoot).flatMap
    (fun r => r.dumpUsefulInternalData ++ r.dump)

inductive Kind where
  | input
  | nonInput
  deriving DecidableEq, Repr

def Kind.text : Kind → Text
  | .input => "INPUT".toList
  | .nonInput => "NON_INPUT".toList

structure Block where
  varFunc : Text
  varName : Text
  kind : Kind
  deps : List Dep
  deriving DecidableEq, Repr

structure Spells (line : Text) (parts : List Text) : Prop where
  four : parts.length = 4
  text : strip line = '[' :: [':'].intercalate parts ++ [']']
  fields : ∀ part ∈ parts, ':' ∉ part

def Dep.parts (d : Dep) : List Text := [d.funcName,d.varName,d.varType,d.inst]

inductive StaticFile : List Text → List Block → Prop where
  | done : StaticFile [] []
  | other {line rest blocks} (useless : inLine "Begin DepRoot" line = false)
      (tail : StaticFile rest blocks) : StaticFile (line :: rest) blocks
  | block {first body last rest blocks} (b : Block)
      (begins : Spells first ["Begin DepRoot".toList,b.varFunc,b.varName,b.kind.text])
      (listed : List.Forall₂ (fun line d => Spells line (Dep.parts d) ∧
        inLine "End DepRoot" line = false) body b.deps)
      (distinct : (names b.deps).Nodup) (ends : inLine "End DepRoot" last = true)
      (tail : StaticFile rest blocks) : StaticFile (first :: (body ++ last :: rest)) (b :: blocks)

/- What each .dy file lists; a file that is missing lists nothing. -/
structure DyFiles (dyFiles : Text → Option Text) (listed : Text → List Dep) : Prop where
  missing : ∀ name, dyFiles name = none → listed name = []
  lists : ∀ name text, dyFiles name = some text →
    List.Forall₂ (fun line d => Spells line (Dep.parts d)) (lines text) (listed name)
  distinct : ∀ name, (names (listed name)).Nodup

/- F of a root: its static names that its .dy file has too, or all names of the .dy file
when it has no static names. -/
def filtered (listed : Text → List Dep) (b : Block) : List Dep :=
  let dynamicDep := listed (b.varName ++ ".dy".toList)
  if b.deps = [] then dynamicDep
  else b.deps.filter (fun d => d.getFullName ∈ names dynamicDep)

def F (listed : Text → List Dep) (b : Block) : Set Text :=
  { name | name ∈ names (filtered listed b) }

structure Report where
  useful : List Dep
  dependents : List Dep
  deriving DecidableEq, Repr

/- A section: the root, the title, a line of four fields for each Dep, an empty line. -/
def sectionLines (t : Block) (title : String) (deps : List Dep) : List Text :=
  ("[Dependency root]".toList ++ [':'].intercalate [t.varFunc,t.varName,t.kind.text]) ::
    title.toList :: (deps.map (fun d => [':'].intercalate d.parts) ++ [[]])

def Report.lines (p : Report) (t : Block) : List Text :=
  sectionLines t "[Useful internal data]" p.useful ++ sectionLines t "[Dependents]" p.dependents

structure Explains (listed : Text → List Dep) (inputs : List Block) (t : Block) (p : Report) :
    Prop where
  useful : ∀ name, name ∈ names p.useful ↔ (∃ i ∈ inputs, name ∈ F listed i) ∧ name ∉ F listed t
  once : (names p.useful).Nodup
  first : ∀ d ∈ p.useful, ∃ before i after, inputs = before ++ i :: after ∧
    d ∈ filtered listed i ∧ ∀ j ∈ before, d.getFullName ∉ F listed j
  dependents : (∀ d, d ∈ p.dependents ↔ d ∈ filtered listed t) ∧ (names p.dependents).Nodup

theorem fieldsSpelled {line : Text} {parts : List Text} (spells : Spells line parts) :
    fields line = parts := by
  have some_ : parts ≠ [] := by
    rintro rfl
    cases spells.four
  rw [fields,spells.text,List.cons_append,List.drop_succ_cons,List.drop_zero,List.dropLast_concat]
  exact List.splitOn_intercalate ':' spells.fields some_

theorem parseSpelled {line : Text} {d : Dep} (spells : Spells line d.parts) :
    Dep.parse line = .ok d := by
  rw [Dep.parse,fieldsSpelled spells]
  rfl

theorem stripInfix (text : Text) : strip text <:+: text := by
  have front : (text.dropWhile isSpace) <:+: text := (List.dropWhile_suffix _).isInfix
  have back : strip text <+: text.dropWhile isSpace := by
    rw [strip,← List.reverse_suffix,List.reverse_reverse]
    exact List.dropWhile_suffix _
  exact back.isInfix.trans front

theorem beginInLine {line : Text} {parts : List Text}
    (spells : Spells line ("Begin DepRoot".toList :: parts)) : inLine "Begin DepRoot" line = true := by
  have inside : "Begin DepRoot".toList <:+: strip line := by
    rw [spells.text]
    cases parts with
    | nil => cases spells.four
    | cons part rest =>
      rw [List.intercalate_cons_cons]
      exact ⟨['['],[':'] ++ [':'].intercalate (part :: rest) ++ [']'],by simp⟩
  exact decide_eq_true (inside.trans (stripInfix line))

theorem distinctSnoc {deps rest : List Dep} {d : Dep} (distinct : (names (deps ++ d :: rest)).Nodup) :
    d.getFullName ∉ names deps ∧ (names ((deps ++ [d]) ++ rest)).Nodup := by
  refine ⟨fun inside => ?_,by rwa [List.append_assoc]⟩
  rw [names,List.map_append,List.nodup_append] at distinct
  exact distinct.2.2 _ inside _ List.mem_cons_self rfl

theorem addDynamicAll {body : List Text} {deps : List Dep} {r : DepRoot}
    (listed : List.Forall₂ (fun line d => Spells line (Dep.parts d)) body deps)
    (distinct : (names (r.dynamicDep ++ deps)).Nodup) :
    addDynamicLines r body = { r with dynamicDep := r.dynamicDep ++ deps } := by
  induction listed generalizing r with
  | nil => rw [addDynamicLines,List.append_nil]
  | cons spells _ ih =>
    obtain ⟨new,more⟩ := distinctSnoc distinct
    simp only [addDynamicLines,parseSpelled spells,DepRoot.addDynamicDep,if_neg new]
    rw [ih more]
    simp

theorem readBlock (dyFiles : Text → Option Text) {body : List Text} {deps : List Dep} {r : DepRoot}
    {last : Text} {rest : List Text} (found : Found)
    (listed : List.Forall₂ (fun line d => Spells line (Dep.parts d) ∧
      inLine "End DepRoot" line = false) body deps)
    (distinct : (names (r.staticDep ++ deps)).Nodup) (ends : inLine "End DepRoot" last = true) :
    readStatic dyFiles (some r) found (body ++ last :: rest) = readStatic dyFiles none
      (found.append (addDynamicDeps dyFiles { r with staticDep := r.staticDep ++ deps }).filter)
      rest := by
  induction listed generalizing r with
  | nil => simp only [List.nil_append,List.append_nil,readStatic,ends,if_true]
  | cons spells _ ih =>
    obtain ⟨new,more⟩ := distinctSnoc distinct
    have next := ih (r := { r with staticDep := r.staticDep ++ [_] }) more
    simp only [List.cons_append,readStatic,spells.2,Bool.false_eq_true,if_false,
      parseSpelled spells.1,bind,Except.bind,DepRoot.addStaticDep,if_neg new]
    rw [next,List.append_assoc,List.singleton_append]

def root (listed : Text → List Dep) (b : Block) : DepRoot :=
  ⟨b.varFunc,b.varName,b.kind.text,filtered listed b,listed (b.varName ++ ".dy".toList),[]⟩

theorem rootFinished {dyFiles : Text → Option Text} {listed : Text → List Dep}
    (dy : DyFiles dyFiles listed) (b : Block) :
    (addDynamicDeps dyFiles ⟨b.varFunc,b.varName,b.kind.text,b.deps,[],[]⟩).filter = root listed b := by
  have added : addDynamicDeps dyFiles ⟨b.varFunc,b.varName,b.kind.text,b.deps,[],[]⟩ =
      ⟨b.varFunc,b.varName,b.kind.text,b.deps,listed (b.varName ++ ".dy".toList),[]⟩ := by
    unfold addDynamicDeps
    cases found : dyFiles (b.varName ++ ".dy".toList) with
    | none => simp only [dy.missing _ found]
    | some text =>
      have all := addDynamicAll (r := ⟨b.varFunc,b.varName,b.kind.text,b.deps,[],[]⟩)
        (dy.lists _ text found) (dy.distinct _)
      simpa using all
  rw [added,DepRoot.filter,root,filtered]
  by_cases empty : b.deps = []
  · simp [empty]
  · simp [empty]

def isInput (b : Block) : Bool := b.kind = .input

theorem kindText (k : Kind) : k.text = "INPUT".toList ↔ k = .input := by
  cases k with
  | input => exact ⟨fun _ => rfl,fun _ => rfl⟩
  | nonInput => decide

theorem appendRoot (found : Found) (listed : Text → List Dep) (b : Block) :
    found.append (root listed b) =
      ⟨found.inputDepRoot ++ ([b].filter isInput).map (root listed),
        found.nonInputDepRoot ++ ([b].filter (!isInput ·)).map (root listed)⟩ := by
  have filed : (root listed b).isInput = "INPUT".toList ↔ isInput b = true :=
    (kindText b.kind).trans decide_eq_true_iff.symm
  cases kind : isInput b with
  | true =>
    rw [Found.append,if_pos (filed.mpr kind)]
    simp only [List.filter_cons,kind,List.filter_nil]
    simp
  | false =>
    rw [Found.append,if_neg (fun same => by rw [filed.mp same] at kind; cases kind)]
    simp only [List.filter_cons,kind,List.filter_nil]
    simp

theorem readStaticFile {dyFiles : Text → Option Text} {listed : Text → List Dep}
    (dy : DyFiles dyFiles listed) {static : List Text} {blocks : List Block}
    (file : StaticFile static blocks) (found : Found) : readStatic dyFiles none found static =
      .ok ⟨found.inputDepRoot ++ (blocks.filter isInput).map (root listed),
        found.nonInputDepRoot ++ (blocks.filter (!isInput ·)).map (root listed)⟩ := by
  induction file generalizing found with
  | done => simp [readStatic]
  | other useless _ ih =>
    simp only [readStatic,useless,Bool.false_eq_true,not_false_eq_true,if_true]
    exact ih found
  | @block line _ _ rest _ b begins body distinct ends _ ih =>
    have parsed : DepRoot.parse line = .ok ⟨b.varFunc,b.varName,b.kind.text,[],[],[]⟩ := by
      rw [DepRoot.parse,fieldsSpelled begins]
    let fresh : DepRoot := ⟨b.varFunc,b.varName,b.kind.text,[],[],[]⟩
    have block := @readBlock dyFiles _ _ fresh _ rest found body distinct ends
    have ended : { fresh with staticDep := fresh.staticDep ++ b.deps } =
      (⟨b.varFunc,b.varName,b.kind.text,b.deps,[],[]⟩ : DepRoot) := rfl
    simp only [readStatic,beginInLine begins,not_true_eq_false,if_false,parsed,bind,Except.bind]
    rw [block,ended,rootFinished dy,ih,appendRoot]
    simp only [← List.map_append,List.append_assoc,← List.filter_append,List.singleton_append]

theorem pruned (dict items : List Dep) :
    items.foldl (fun copy item => copy.filter (fun d => d.getFullName ≠ item.getFullName)) dict =
      dict.filter (fun d => d.getFullName ∉ names items) := by
  induction items generalizing dict with
  | nil => simp [names]
  | cons item rest ih =>
    rw [List.foldl_cons,ih,List.filter_filter]
    refine List.filter_congr (fun d _ => ?_)
    simp [names,eq_comm,Bool.and_comm]

theorem filteredDistinct {dyFiles : Text → Option Text} {listed : Text → List Dep}
    (dy : DyFiles dyFiles listed) {b : Block} (distinct : (names b.deps).Nodup) :
    (names (filtered listed b)).Nodup := by
  unfold filtered
  split
  · exact dy.distinct _
  · exact (List.filter_sublist.map Dep.getFullName).nodup distinct

theorem blockDistinct {static : List Text} {blocks : List Block} (file : StaticFile static blocks) :
    ∀ b ∈ blocks, (names b.deps).Nodup := by
  induction file with
  | done => exact nofun
  | other _ _ ih => exact ih
  | block b _ _ distinct _ _ ih =>
    intro c member
    rcases List.mem_cons.mp member with rfl | member
    · exact distinct
    · exact ih c member

def explained (listed : Text → List Dep) (inputs : List Block) (t : Block) : Report :=
  let iDepDict := keepFirst Dep.getFullName (inputs.flatMap (filtered listed))
  ⟨iDepDict.filter (fun d => d.getFullName ∉ names (filtered listed t)),filtered listed t⟩

theorem usefulExplained (listed : Text → List Dep) (inputs targets : List Block) :
    getUsefulInternalData (inputs.map (root listed)) (targets.map (root listed)) =
      targets.map fun t => { root listed t with internalData := (explained listed inputs t).useful } := by
  have dict : (inputs.map (root listed)).foldl (fun dict iDepRoot =>
      iDepRoot.staticDep.foldl (add Dep.getFullName) dict) [] =
      keepFirst Dep.getFullName (inputs.flatMap (filtered listed)) := by
    rw [List.foldl_map,keepFirst,List.foldl_flatMap]
    rfl
  simp only [getUsefulInternalData,dict,List.map_map]
  refine List.map_congr_left (fun t _ => ?_)
  simp only [Function.comp,pruned,explained,root]

theorem dumpParts (d : Dep) : d.dump = [':'].intercalate d.parts := by
  simp [Dep.dump,Dep.parts,List.intercalate]

theorem dumpLines (listed : Text → List Dep) (inputs : List Block) (t : Block) :
    let r : DepRoot := { root listed t with internalData := (explained listed inputs t).useful }
    r.dumpUsefulInternalData ++ r.dump = (explained listed inputs t).lines t := by
  intro r
  have title : r.header =
      "[Dependency root]".toList ++ [':'].intercalate [t.varFunc,t.varName,t.kind.text] := by
    change "[Dependency root]".toList ++ t.varFunc ++ ':' :: (t.varName ++ ':' :: t.kind.text) = _
    rw [List.append_assoc]
    congr 1
    simp [List.intercalate]
  have each (deps : List Dep) : deps.map Dep.dump = deps.map (fun d => [':'].intercalate d.parts) :=
    List.map_congr_left fun d _ => dumpParts d
  simp only [DepRoot.dumpUsefulInternalData,DepRoot.dump,title,each,Report.lines,sectionLines,
    List.cons_append,List.nil_append,List.append_assoc]
  rfl

theorem explainedExplains {dyFiles : Text → Option Text} {listed : Text → List Dep}
    (dy : DyFiles dyFiles listed) (inputs : List Block) {t : Block}
    (distinct : (names t.deps).Nodup) : Explains listed inputs t (explained listed inputs t) := by
  let all := inputs.flatMap (filtered listed)
  have keys := keepFirstKeys Dep.getFullName all
  have inAll (name : Text) : name ∈ all.map Dep.getFullName ↔ ∃ i ∈ inputs, name ∈ F listed i := by
    simp only [all,List.map_flatMap,List.mem_flatMap]
    rfl
  refine ⟨fun name => ?_,?_,fun d inside => ?_,fun d => Iff.rfl,filteredDistinct dy distinct⟩
  · rw [← inAll,← keys.2 name]
    simp only [names,explained,List.mem_map,List.mem_filter,decide_eq_true_eq]
    constructor
    · rintro ⟨d,⟨inside,kept⟩,rfl⟩
      exact ⟨⟨d,inside,rfl⟩,fun found => kept (List.mem_map.mp found)⟩
    · rintro ⟨⟨d,inside,rfl⟩,kept⟩
      exact ⟨d,⟨inside,fun found => kept (List.mem_map.mpr found)⟩,rfl⟩
  · exact (List.filter_sublist.map Dep.getFullName).nodup keys.1
  · have kept := (memKeepFirst Dep.getFullName all d).mp (List.mem_filter.mp inside).1
    exact firstFlatMap Dep.getFullName kept

/- For every family of .dy files and every static file: for each root that is no input, in
file order, main prints the names of the inputs less its own, and its own; and which names
those are depends on the set of input blocks alone. -/
theorem usefulDataPrinted {dyFiles : Text → Option Text} {listed : Text → List Dep}
    (dy : DyFiles dyFiles listed) {static : Text} {blocks : List Block}
    (file : StaticFile (lines static) blocks) :
    ∃ reports : List Report, main dyFiles static =
        .ok (((blocks.filter (!isInput ·)).zip reports).flatMap fun p => p.2.lines p.1) ∧
      List.Forall₂ (Explains listed (blocks.filter isInput)) (blocks.filter (!isInput ·)) reports ∧
      ∀ other otherBlocks, StaticFile (lines other) otherBlocks →
        (∀ b, isInput b → (b ∈ blocks ↔ b ∈ otherBlocks)) →
        ∃ otherReports : List Report, main dyFiles other =
            .ok (((otherBlocks.filter (!isInput ·)).zip otherReports).flatMap fun p => p.2.lines p.1) ∧
          ∀ t (p q : Report), (t,p) ∈ (blocks.filter (!isInput ·)).zip reports →
            (t,q) ∈ (otherBlocks.filter (!isInput ·)).zip otherReports →
            ∀ name, (name ∈ names p.useful ↔ name ∈ names q.useful) ∧
              (name ∈ names p.dependents ↔ name ∈ names q.dependents) := by
  have prints {text : Text} {bs : List Block} (here : StaticFile (lines text) bs) :
      main dyFiles text = .ok (((bs.filter (!isInput ·)).zip ((bs.filter (!isInput ·)).map
        (explained listed (bs.filter isInput)))).flatMap fun p => p.2.lines p.1) := by
    simp only [main,readStaticFile dy here,List.nil_append,bind,Except.bind,usefulExplained]
    refine congrArg Except.ok ?_
    have pairs (f : Block → Report) (targets : List Block) :
        targets.zip (targets.map f) = targets.map fun t => (t,f t) := by
      have both := List.zip_map' (f := id) (g := f) (l := targets)
      rwa [List.map_id] at both
    rw [pairs,List.flatMap_map,List.flatMap_map]
    exact List.flatMap_congr fun t _ => dumpLines listed (bs.filter isInput) t
  have explains {text : Text} {bs : List Block} (here : StaticFile (lines text) bs) :
      List.Forall₂ (Explains listed (bs.filter isInput)) (bs.filter (!isInput ·))
        ((bs.filter (!isInput ·)).map (explained listed (bs.filter isInput))) := by
    rw [List.forall₂_map_right_iff,List.forall₂_same]
    exact fun t member => explainedExplains dy _ (blockDistinct here t (List.mem_of_mem_filter member))
  refine ⟨_,prints file,explains file,fun other otherBlocks otherFile same => ?_⟩
  refine ⟨_,prints otherFile,fun t p q left right name => ?_⟩
  have inputs : (∃ i ∈ blocks.filter isInput, name ∈ F listed i) ↔
      ∃ i ∈ otherBlocks.filter isInput, name ∈ F listed i := by
    refine exists_congr (fun i => and_congr_left (fun _ => ?_))
    rw [List.mem_filter,List.mem_filter]
    exact and_congr_left (same i)
  have here := List.forall₂_zip (explains file) left
  have there := List.forall₂_zip (explains otherFile) right
  refine ⟨?_,?_⟩
  · rw [here.useful name,there.useful name,inputs]
  · simp only [names,List.mem_map,here.dependents.1,there.dependents.1]

instance (line : Text) (parts : List Text) : Decidable (Spells line parts) :=
  decidable_of_iff (parts.length = 4 ∧ strip line = '[' :: [':'].intercalate parts ++ [']'] ∧
    ∀ part ∈ parts, ':' ∉ part) ⟨fun ⟨a,b,c⟩ => ⟨a,b,c⟩,fun ⟨a,b,c⟩ => ⟨a,b,c⟩⟩

def depA : Dep := ⟨"f".toList,"a".toList,"scalar".toList,"store i32 0".toList⟩
def depB : Dep := ⟨"f".toList,"b".toList,"scalar".toList,"load i32".toList⟩
def bare (d : Dep) : Dep := { d with varType := [], inst := [] }

def blocksXY : List Block := [⟨"main".toList,"x".toList,.input,[depA,depB]⟩,
  ⟨"main".toList,"y".toList,.nonInput,[]⟩]

def staticXY : Text :=
  ("# roots\n[Begin DepRoot:main:x:INPUT]\n[f:a:scalar:store i32 0]\n[f:b:scalar:load i32]\n" ++
  "[End DepRoot:main:x:INPUT]\n[Begin DepRoot:main:y:NON_INPUT]\n[End DepRoot:main:y:NON_INPUT]\n").toList

def dyXY (name : Text) : Option Text :=
  if name = "x.dy".toList then some "[f:a::]\n[f:b::]\n".toList
  else if name = "y.dy".toList then some "[f:b::]\n".toList
  else none

def listedXY (name : Text) : List Dep :=
  if name = "x.dy".toList then [bare depA,bare depB]
  else if name = "y.dy".toList then [bare depB]
  else []

theorem dyFilesXY : DyFiles dyXY listedXY := by
  have x : lines "[f:a::]\n[f:b::]\n".toList = ["[f:a::]\n".toList,"[f:b::]\n".toList] := by
    decide +kernel
  have y : lines "[f:b::]\n".toList = ["[f:b::]\n".toList] := by decide +kernel
  have a : Spells "[f:a::]\n".toList (bare depA).parts := by decide +kernel
  have b : Spells "[f:b::]\n".toList (bare depB).parts := by decide +kernel
  refine ⟨fun name missing => ?_,fun name text found => ?_,fun name => ?_⟩
  · unfold dyXY at missing
    unfold listedXY
    split at missing <;> try contradiction
    split at missing <;> try contradiction
    rename_i notX notY
    rw [if_neg notX,if_neg notY]
  · unfold dyXY at found
    unfold listedXY
    split at found
    · cases Option.some.inj found
      rw [x,if_pos (by assumption)]
      exact .cons a (.cons b .nil)
    · split at found <;> try contradiction
      rename_i notX isY
      cases Option.some.inj found
      rw [y,if_neg notX,if_pos isY]
      exact .cons b .nil
  · unfold listedXY
    split
    · decide +kernel
    · split
      · decide +kernel
      · exact List.nodup_nil

theorem staticFileXY : StaticFile (lines staticXY) blocksXY := by
  have split : lines staticXY = ["# roots\n".toList,"[Begin DepRoot:main:x:INPUT]\n".toList,
      "[f:a:scalar:store i32 0]\n".toList,"[f:b:scalar:load i32]\n".toList,
      "[End DepRoot:main:x:INPUT]\n".toList,"[Begin DepRoot:main:y:NON_INPUT]\n".toList,
      "[End DepRoot:main:y:NON_INPUT]\n".toList] := by decide +kernel
  rw [split]
  have two : List.Forall₂ (fun line d => Spells line (Dep.parts d) ∧
      inLine "End DepRoot" line = false) ["[f:a:scalar:store i32 0]\n".toList,
      "[f:b:scalar:load i32]\n".toList] [depA,depB] :=
    .cons ⟨by decide +kernel,by decide +kernel⟩ (.cons ⟨by decide +kernel,by decide +kernel⟩ .nil)
  have target := StaticFile.block ⟨"main".toList,"y".toList,.nonInput,[]⟩
    (show Spells "[Begin DepRoot:main:y:NON_INPUT]\n".toList _ by decide +kernel) .nil
    List.nodup_nil (show inLine "End DepRoot" "[End DepRoot:main:y:NON_INPUT]\n".toList = true by
      decide +kernel) .done
  have input := StaticFile.block ⟨"main".toList,"x".toList,.input,[depA,depB]⟩
    (show Spells "[Begin DepRoot:main:x:INPUT]\n".toList _ by decide +kernel) two
    (by decide +kernel) (show inLine "End DepRoot" "[End DepRoot:main:x:INPUT]\n".toList = true by
      decide +kernel) target
  exact .other (by decide +kernel) input

/- An input with two names, one of which the other root depends on. -/
theorem usefulDataPrintedXY : main dyXY staticXY = .ok (["[Dependency root]main:y:NON_INPUT",
      "[Useful internal data]","f:a:scalar:store i32 0","","[Dependency root]main:y:NON_INPUT",
      "[Dependents]","f:b::",""].map String.toList) ∧
    ∃ reports : List Report, main dyXY staticXY =
        .ok (((blocksXY.filter (!isInput ·)).zip reports).flatMap fun p => p.2.lines p.1) ∧
      List.Forall₂ (Explains listedXY (blocksXY.filter isInput)) (blocksXY.filter (!isInput ·)) reports := by
  obtain ⟨reports,ran,explains,_⟩ := usefulDataPrinted dyFilesXY staticFileXY
  exact ⟨by decide +kernel,reports,ran,explains⟩

end Autonomizer.DySt2Fin
