import Mathlib
import Autonomizer.DySt2Fin

/-! addDynamicDeps of DySt2Fin.py on files of any lines: which names it has when the first
line raises, and what that leaves of the static dependencies. -/
namespace Autonomizer.DyFile
open DySt2Fin Format

def lineName (line : Text) : Text :=
  match fields line with
  | funcName :: varName :: _ => funcName ++ ':' :: varName
  | _ => []

def confirmed (file : List Text) : Set Text :=
  { name | ∃ line ∈ file, ∃ d : Dep, Spells line d.parts ∧ d.getFullName = name }

/- Line i raises when it is reached: it has too few fields, or the name of a line before it. -/
def Odd (seen file : List Text) (i : Nat) : Prop :=
  ∃ line, file[i]? = some line ∧
    ((fields line).length < 4 ∨ lineName line ∈ seen ++ (file.take i).map lineName)

def Reached (seen file : List Text) (i : Nat) : Prop := ∀ j ≤ i, ¬ Odd seen file j

def early (seen file : List Text) : Set Text :=
  { name | ∃ i line, file[i]? = some line ∧ Reached seen file i ∧ lineName line = name }

theorem parseNamed {line : Text} {dep : Dep} (parsed : Dep.parse line = .ok dep) :
    ¬ (fields line).length < 4 ∧ dep.getFullName = lineName line := by
  unfold Dep.parse at parsed
  unfold lineName
  split at parsed <;> try contradiction
  next funcName varName varType inst more shape =>
  cases parsed
  rw [shape]
  exact ⟨by simp,rfl⟩

theorem parseShort {line : Text} {e : PyError} (failed : Dep.parse line = .error e) :
    (fields line).length < 4 := by
  unfold Dep.parse at failed
  split at failed
  · cases failed
  · next short =>
    match shape : fields line with
    | [] => exact Nat.succ_pos 3
    | [_] => exact Nat.lt_of_sub_pos (Nat.succ_pos 2)
    | [_,_] => exact Nat.lt_of_sub_pos (Nat.succ_pos 1)
    | [_,_,_] => exact Nat.lt_succ_self 3
    | a :: b :: c :: d :: more => exact absurd shape (short a b c d more)

theorem oddNext (seen : List Text) (line : Text) (rest : List Text) (i : Nat) :
    Odd seen (line :: rest) (i + 1) ↔ Odd (seen ++ [lineName line]) rest i := by
  simp only [Odd,List.getElem?_cons_succ,List.take_succ_cons,List.map_cons,List.append_assoc,
    List.singleton_append]

theorem reachedNext {seen : List Text} {line : Text} {rest : List Text} {i : Nat}
    (plain : ¬ Odd seen (line :: rest) 0) :
    Reached seen (line :: rest) (i + 1) ↔ Reached (seen ++ [lineName line]) rest i := by
  constructor
  · intro reached j below odd
    exact reached (j + 1) (Nat.succ_le_succ below) ((oddNext seen line rest j).mpr odd)
  · intro reached j below odd
    cases j with
    | zero => exact plain odd
    | succ j => exact reached j (Nat.le_of_succ_le_succ below) ((oddNext seen line rest j).mp odd)

theorem earlyNext {seen : List Text} {line : Text} {rest : List Text}
    (plain : ¬ Odd seen (line :: rest) 0) (name : Text) :
    name ∈ early seen (line :: rest) ↔
      lineName line = name ∨ name ∈ early (seen ++ [lineName line]) rest := by
  constructor
  · intro ⟨i,other,there,reached,named⟩
    cases i with
    | zero =>
      cases there
      exact .inl named
    | succ i => exact .inr ⟨i,other,there,(reachedNext plain).mp reached,named⟩
  · intro either
    rcases either with named | ⟨i,other,there,reached,named⟩
    · refine ⟨0,line,rfl,fun j below => ?_,named⟩
      rw [Nat.le_zero.mp below]
      exact plain
    · exact ⟨i + 1,other,there,(reachedNext plain).mpr reached,named⟩

theorem earlyNone {seen : List Text} {file : List Text} (odd : Odd seen file 0) (name : Text) :
    name ∉ early seen file :=
  fun ⟨_,_,_,reached,_⟩ => reached 0 (Nat.zero_le _) odd

theorem linesNames (r : DepRoot) (file : List Text) (name : Text) :
    name ∈ names (addDynamicLines r file).dynamicDep ↔
      name ∈ names r.dynamicDep ∨ name ∈ early (names r.dynamicDep) file := by
  induction file generalizing r with
  | nil =>
    have none_ : name ∉ early (names r.dynamicDep) [] := by simp [early]
    simp only [addDynamicLines,none_,or_false]
  | cons line rest ih =>
    rw [addDynamicLines]
    cases parsed : Dep.parse line with
    | error e =>
      have odd : Odd (names r.dynamicDep) (line :: rest) 0 := ⟨line,rfl,.inl (parseShort parsed)⟩
      simp only [earlyNone odd name,or_false]
    | ok dep =>
      obtain ⟨long,named⟩ := parseNamed parsed
      by_cases known : dep.getFullName ∈ names r.dynamicDep
      · have odd : Odd (names r.dynamicDep) (line :: rest) 0 :=
          ⟨line,rfl,.inr (List.mem_append_left _ (named ▸ known))⟩
        simp only [DepRoot.addDynamicDep,if_pos known,earlyNone odd name,or_false]
      · have plain : ¬ Odd (names r.dynamicDep) (line :: rest) 0 := by
          rintro ⟨other,there,raises⟩
          cases there
          rcases raises with short | again
          · exact long short
          · rw [List.take_zero,List.map_nil,List.append_nil,← named] at again
            exact known again
        have grown : names (r.dynamicDep ++ [dep]) = names r.dynamicDep ++ [lineName line] := by
          rw [names,List.map_append,← named]
          rfl
        simp only [DepRoot.addDynamicDep,if_neg known]
        rw [ih,grown,earlyNext plain,List.mem_append,List.mem_singleton,or_assoc,
          eq_comm (a := name)]

/- Nothing that a line of the file confirms is lost: not its name, and not the static
dependency of that name. -/
structure Kept (dyFiles : Text → Option Text) (r : DepRoot) (file : List Text) : Prop where
  keys : ∀ name, name ∈ names (addDynamicDeps dyFiles r).dynamicDep ↔ name ∈ confirmed file
  kept : ∀ d ∈ r.staticDep, d.getFullName ∈ confirmed file →
    d ∈ (addDynamicDeps dyFiles r).filter.staticDep

/- Lines that nothing is lost by: a well-formed line from the first that raises on has the
name of a line before that, and a line before it has the name of a well-formed one. -/
structure Harmless (file : List Text) : Prop where
  late : ∀ (i : Nat) line (d : Dep), file[i]? = some line → Spells line d.parts →
    ¬ Reached [] file i → d.getFullName ∈ early [] file
  strange : ∀ (i : Nat) line, file[i]? = some line → Reached [] file i →
    (∃ d : Dep, Spells line d.parts) ∨ lineName line ∈ confirmed file

theorem spelledName {line : Text} {d : Dep} (spells : Spells line d.parts) :
    lineName line = d.getFullName := by
  rw [lineName,fieldsSpelled spells]
  rfl

theorem harmlessIff (file : List Text) :
    (∀ name, name ∈ early [] file ↔ name ∈ confirmed file) ↔ Harmless file := by
  constructor
  · intro same
    refine ⟨fun i line d there spells _ => ?_,fun i line there reached => .inr ?_⟩
    · exact (same _).mpr ⟨line,List.mem_of_getElem? there,d,spells,rfl⟩
    · exact (same _).mp ⟨i,line,there,reached,rfl⟩
  · intro harmless name
    constructor
    · rintro ⟨i,line,there,reached,rfl⟩
      rcases harmless.strange i line there reached with ⟨d,spells⟩ | known
      · exact ⟨line,List.mem_of_getElem? there,d,spells,(spelledName spells).symm⟩
      · exact known
    · rintro ⟨line,inside,d,spells,rfl⟩
      obtain ⟨i,there⟩ := List.mem_iff_getElem?.mp inside
      by_cases reached : Reached [] file i
      · exact ⟨i,line,there,reached,spelledName spells⟩
      · exact harmless.late i line d there spells reached

theorem linesStatic (r : DepRoot) (file : List Text) :
    (addDynamicLines r file).staticDep = r.staticDep := by
  induction file generalizing r with
  | nil => rfl
  | cons line rest ih =>
    rw [addDynamicLines]
    split
    · rfl
    · split
      · rfl
      next added =>
      rw [ih]
      unfold DepRoot.addDynamicDep at added
      split at added <;> try contradiction
      cases added
      rfl

theorem addedStatic (dyFiles : Text → Option Text) (r : DepRoot) :
    (addDynamicDeps dyFiles r).staticDep = r.staticDep := by
  unfold addDynamicDeps
  split
  · rfl
  · exact linesStatic r _

/- For every file of any lines: the names are those of the well-formed lines, and filter
keeps what they confirm, exactly when no line from the first odd one on is missed. -/
theorem keptIff {dyFiles : Text → Option Text} {r : DepRoot} {text : Text}
    (there : dyFiles (r.varName ++ ".dy".toList) = some text) (fresh : r.dynamicDep = []) :
    Kept dyFiles r (lines text) ↔ Harmless (lines text) := by
  have added : addDynamicDeps dyFiles r = addDynamicLines r (lines text) := by
    rw [addDynamicDeps,there]
  have keys (name : Text) : name ∈ names (addDynamicDeps dyFiles r).dynamicDep ↔
      name ∈ early [] (lines text) := by
    have known := linesNames r (lines text) name
    rw [fresh] at known
    rw [added,known]
    exact or_iff_right List.not_mem_nil
  rw [← harmlessIff]
  constructor
  · exact fun kept name => (keys name).symm.trans (kept.keys name)
  · intro same
    have all (name : Text) := (keys name).trans (same name)
    refine ⟨all,fun d inside known => ?_⟩
    have some_ : ¬ (addDynamicDeps dyFiles r).staticDep.length = 0 := by
      rw [addedStatic]
      exact fun none_ => List.not_mem_nil ((List.length_eq_zero_iff.mp none_) ▸ inside)
    rw [DepRoot.filter,if_neg some_]
    refine List.mem_filter.mpr ⟨(addedStatic dyFiles r).symm ▸ inside,?_⟩
    exact decide_eq_true ((all _).mpr known)

theorem harmlessDistinct {file : List Text} {deps : List Dep}
    (spelled : List.Forall₂ (fun line d => Spells line (Dep.parts d)) file deps)
    (distinct : (names deps).Nodup) : Harmless file := by
  have each : file.map lineName = names deps := by
    rw [names,← List.forall₂_eq_eq_eq,List.forall₂_map_left_iff,List.forall₂_map_right_iff]
    exact spelled.imp (fun _ _ spells => spelledName spells)
  have wellFormed : ∀ line ∈ file, ∃ d : Dep, Spells line d.parts := by
    intro line inside
    obtain ⟨i,there⟩ := List.mem_iff_getElem?.mp inside
    have bound := (List.getElem?_eq_some_iff.mp there).1
    have row := (List.forall₂_iff_get.mp spelled).2 i bound (spelled.length_eq ▸ bound)
    rw [List.get_eq_getElem,(List.getElem?_eq_some_iff.mp there).2] at row
    exact ⟨_,row⟩
  have plain (i : Nat) : ¬ Odd [] file i := by
    rintro ⟨line,there,raises⟩
    obtain ⟨d,spells⟩ := wellFormed line (List.mem_of_getElem? there)
    rcases raises with short | again
    · rw [fieldsSpelled spells] at short
      exact absurd short (Nat.lt_irrefl 4)
    · have whole : (file.take i).map lineName ++ lineName line :: (file.drop (i + 1)).map lineName =
          names deps := by
        have bound := (List.getElem?_eq_some_iff.mp there).1
        rw [← each,← List.map_cons,← List.map_append,
          ← (List.getElem?_eq_some_iff.mp there).2,List.cons_getElem_drop_succ,List.take_append_drop]
      rw [← whole] at distinct
      exact List.disjoint_of_nodup_append distinct again List.mem_cons_self
  refine ⟨fun i _ _ _ _ unread => absurd (fun j _ => plain j) unread,fun i line there _ => .inl ?_⟩
  exact wellFormed line (List.mem_of_getElem? there)

def rootX : DepRoot := ⟨"main".toList,"x".toList,"INPUT".toList,[depA,depB],[],[]⟩

def goodFile (_ : Text) : Option Text := some "[f:a::]\n[f:b::]\n".toList

def blankFile (_ : Text) : Option Text := some "\n[f:a::]\n[f:b::]\n".toList

theorem goodFileKept : Kept goodFile rootX (lines "[f:a::]\n[f:b::]\n".toList) := by
  have there : goodFile (rootX.varName ++ ".dy".toList) = some "[f:a::]\n[f:b::]\n".toList := rfl
  refine (keptIff there rfl).mpr ?_
  have split : lines "[f:a::]\n[f:b::]\n".toList = ["[f:a::]\n".toList,"[f:b::]\n".toList] := by
    decide +kernel
  have a : Spells "[f:a::]\n".toList (bare depA).parts := by decide +kernel
  have b : Spells "[f:b::]\n".toList (bare depB).parts := by decide +kernel
  rw [split]
  exact harmlessDistinct (.cons a (.cons b .nil)) (by decide +kernel)

theorem blankFileDrops : ¬ ∀ dyFiles (r : DepRoot) text,
    dyFiles (r.varName ++ ".dy".toList) = some text → r.dynamicDep = [] →
      Kept dyFiles r (lines text) := by
  intro all
  have kept := all blankFile rootX "\n[f:a::]\n[f:b::]\n".toList rfl rfl
  have split : lines "\n[f:a::]\n[f:b::]\n".toList =
      ["\n".toList,"[f:a::]\n".toList,"[f:b::]\n".toList] := by decide +kernel
  have a : Spells "[f:a::]\n".toList (bare depA).parts := by decide +kernel
  have confirms : (bare depA).getFullName ∈ confirmed (lines "\n[f:a::]\n[f:b::]\n".toList) := by
    rw [split]
    exact ⟨_,List.mem_cons_of_mem _ List.mem_cons_self,_,a,rfl⟩
  have found := (kept.keys _).mpr confirms
  have none_ : (addDynamicDeps blankFile rootX).dynamicDep = [] := by decide +kernel
  rw [none_] at found
  cases found

end Autonomizer.DyFile
