import Mathlib
import Autonomizer.Binary64

/-! Vg2Dy.py: the (function, variable) pairs it takes from a taint log. A file of the
source directory is known by its base name. -/
namespace Autonomizer.Vg2Dy
open Binary64 Format

inductive PyError where
  | valueError
  | indexError
  | unboundLocalError
  deriving DecidableEq, Repr

/- str.split(). -/
def words (text : Text) : List Text := (text.splitOnP isSpace).filter (· ≠ [])

/- The text before the first occurrence of a part; none when find returns -1. -/
def before (part : Text) : Text → Option Text
  | [] => if part = [] then some [] else none
  | c :: rest => if part.isPrefixOf (c :: rest) then some [] else (before part rest).map (c :: ·)

def upToLast (c : Char) (text : Text) : Text := (text.reverse.dropWhile (· ≠ c)).reverse

/- re.search of if\s*\(.+\) at the start of the text: the length of the match. -/
def ifHere : Text → Option Nat
  | 'i' :: 'f' :: rest =>
      match rest.dropWhile isSpace with
      | '(' :: body =>
          let inside := upToLast ')' body
          if 2 ≤ inside.length then some (3 + (rest.takeWhile isSpace).length + inside.length)
          else none
      | _ => none
  | _ => none

def ifSearch : Text → Option Nat
  | [] => none
  | c :: rest => match ifHere (c :: rest) with
      | some n => some n
      | none => ifSearch rest

def leftHandSide (srcLine : Text) : Option Text :=
  let cut (part : String) := before part.toList srcLine
  let other : Option Text := match cut " = " with
    | some LHS => some (strip LHS)
    | none => none
  -- the pattern is a backslash, and the cut is made at a slash
  let divided : Option Text := match cut "\\=" with
    | some _ => some (strip ((cut "/=").getD srcLine.dropLast))
    | none => other
  (["++","--","+=","-=","*="].findSome? (fun part => (cut part).map strip)).or divided

def nameStart (c : Char) : Bool := c = '_' || c.isAlpha

def nameChar (c : Char) : Bool := c = '_' || c.isAlphanum

/- variables[0]. -/
def firstName (LHS : Text) : Except PyError Text :=
  match LHS.dropWhile (fun c => !nameStart c) with
  | [] => .error .indexError
  | name => .ok (name.takeWhile nameChar)

def checkSrcVar (source : Text) (lineInfo : Int) : Except PyError (Option Text) :=
  match (lines source)[(lineInfo - 1).toNat]? with
  | none => .error .unboundLocalError
  | some line =>
      let srcLine := strip line
      let srcLine := match ifSearch srcLine with
        | some n => strip (srcLine.drop n)
        | none => srcLine
      match leftHandSide srcLine with
      | none => .ok none
      | some LHS => (firstName LHS).map some

structure Place where
  funcInfo : Text
  fileInfo : Text
  lineInfo : Int
  deriving DecidableEq, Repr

/- line.split('|')[0]. -/
def locInfo (line : Text) : Text := line.takeWhile (· ≠ '|')

def place (line : Text) : Except PyError Place :=
  match words (locInfo line) with
  | [_,funcInfo,fileInfo] =>
      -- remove parentheses
      match ((fileInfo.drop 1).dropLast).splitOn ':' with
      | [fileInfo,lineInfo] => match pyInt (strip lineInfo) with
        | some n => .ok ⟨strip funcInfo,strip fileInfo,n⟩
        | none => .error .valueError
      | _ => .error .valueError
  | _ => .error .valueError

/- re.search of \{.+\}: from the first brace to the last. -/
def braces (line : Text) : Option Text :=
  let group := upToLast '}' (line.dropWhile (· ≠ '{'))
  if 3 ≤ group.length then some group else none

def unknownobj : Text := "unknownobj".toList

def varInfo (line : Text) : Option Text :=
  match braces line with
  | none => none
  | some group => if (before "unknownobj".toList group).isSome then none
    else some (group.drop 1).dropLast

/- The files glob finds, by their base names, with what they hold. -/
abbrev SrcDict := Text → Option Text

abbrev ResultDict := Text → Option (Finset Text)

def addVar (resultDict : ResultDict) (funcInfo varInfo : Text) : ResultDict :=
  Function.update resultDict funcInfo (some (insert varInfo ((resultDict funcInfo).getD ∅)))

def readLine (srcDict : SrcDict) (resultDict : ResultDict) (line : Text) :
    Except PyError ResultDict :=
  if "0x".toList.isPrefixOf line then do
    let p ← place line
    match srcDict p.fileInfo with
    | none => return resultDict
    | some source =>
      match varInfo line with
      | some v => return addVar resultDict p.funcInfo v
      | none =>
        match ← checkSrcVar source p.lineInfo with
        | none => return resultDict
        | some v => return addVar resultDict p.funcInfo v
  else return resultDict

def main (srcDict : SrcDict) (log : Text) : Except PyError ResultDict :=
  (lines log).foldlM (readLine srcDict) (fun _ => none)

def Printed (resultDict : ResultDict) (p : Text × Text) : Prop :=
  ∃ vars, resultDict p.1 = some vars ∧ p.2 ∈ vars

def said (srcDict : SrcDict) (line : Text) : Except PyError (Option (Text × Text)) :=
  if "0x".toList.isPrefixOf line then do
    let p ← place line
    match srcDict p.fileInfo with
    | none => return none
    | some source =>
      match varInfo line with
      | some v => return some (p.funcInfo,v)
      | none => return (← checkSrcVar source p.lineInfo).map (fun v => (p.funcInfo,v))
  else return none

def told (line : Text) : Option (Text × Text) :=
  if "0x".toList.isPrefixOf line then
    match place line,varInfo line with
    | .ok p,some v => some (p.funcInfo,v)
    | _,_ => none
  else none

@[simp] theorem printedNone (p : Text × Text) : ¬ Printed (fun _ => none) p := by
  rintro ⟨_,found,_⟩
  cases found

@[simp] theorem printedAdd (resultDict : ResultDict) (f v : Text) (p : Text × Text) :
    Printed (addVar resultDict f v) p ↔ Printed resultDict p ∨ p = (f,v) := by
  obtain ⟨g,w⟩ := p
  unfold Printed addVar
  by_cases same : g = f
  · subst same
    cases found : resultDict g with
    | none => simp
    | some vars => simp [or_comm]
  · simp [same]

theorem readLineSaid (srcDict : SrcDict) (resultDict : ResultDict) (line : Text) :
    readLine srcDict resultDict line = (said srcDict line).map (fun found => match found with
      | some (f,v) => addVar resultDict f v
      | none => resultDict) := by
  unfold readLine said
  split
  · cases place line with
    | error e => rfl
    | ok p =>
      simp only [bind,Except.bind]
      cases srcDict p.fileInfo with
      | none => rfl
      | some source =>
        cases varInfo line with
        | some v => rfl
        | none =>
          simp only []
          cases checkSrcVar source p.lineInfo with
          | error e => rfl
          | ok found => cases found <;> rfl
  · rfl

/- Reading lines succeeds exactly when each of them has something to say or nothing,
and adds the pairs they say. -/
theorem readLines (srcDict : SrcDict) (resultDict : ResultDict) (all : List Text) :
    ((∃ last, all.foldlM (readLine srcDict) resultDict = .ok last) ↔
      ∀ line ∈ all, ∃ found, said srcDict line = .ok found) ∧
    ∀ last, all.foldlM (readLine srcDict) resultDict = .ok last → ∀ p, Printed last p ↔
      Printed resultDict p ∨ ∃ line ∈ all, said srcDict line = .ok (some p) := by
  induction all generalizing resultDict with
  | nil =>
    refine ⟨⟨fun _ => nofun,fun _ => ⟨resultDict,rfl⟩⟩,?_⟩
    intro last read p
    cases read
    simp
  | cons line rest ih =>
    simp only [List.foldlM_cons,readLineSaid]
    cases here : said srcDict line with
    | error e => simp [Except.map,bind,Except.bind,here]
    | ok found =>
      simp only [Except.map,bind,Except.bind]
      cases found with
      | none =>
        obtain ⟨returns,adds⟩ := ih resultDict
        exact ⟨by simpa [here] using returns,by simpa [here] using adds⟩
      | some p =>
        obtain ⟨returns,adds⟩ := ih (addVar resultDict p.1 p.2)
        refine ⟨by simpa [here] using returns,?_⟩
        intro last read q
        rw [adds last read q,printedAdd]
        simp [here,or_assoc,eq_comm]

theorem mainReads (srcDict : SrcDict) (log : Text) :
    ((∃ last, main srcDict log = .ok last) ↔ ∀ line ∈ lines log, ∃ found, said srcDict line = .ok found) ∧
    ∀ last, main srcDict log = .ok last → ∀ p, Printed last p ↔
      ∃ line ∈ lines log, said srcDict line = .ok (some p) := by
  obtain ⟨returns,adds⟩ := readLines srcDict (fun _ => none) (lines log)
  exact ⟨returns,fun last read p => (adds last read p).trans (by simp)⟩

theorem wordsAppend (first rest : Text) {c : Char} (blank : isSpace c = true) :
    words (first ++ c :: rest) = words first ++ words rest := by
  unfold words
  rw [List.splitOnP_append_cons _ _ blank,List.filter_append]

theorem wordsOne {word : Text} (some_ : word ≠ []) (plain : ∀ c ∈ word, isSpace c = false) :
    words word = [word] := by
  rw [words,List.splitOnP_eq_singleton plain]
  simp [some_]

theorem stripPlain {text : Text} (plain : ∀ c ∈ text, isSpace c = false) : strip text = text := by
  rw [strip,dropNone plain,dropNone (fun c inside => plain c (List.mem_reverse.mp inside)),
    List.reverse_reverse]

theorem pyIntPlain (n : Int) : pyInt (decimal n) = some n := by
  have scanned := scanDecimal n [] nofun
  rw [List.append_nil] at scanned
  rw [pyInt,scanned]
  rfl

theorem placeThree {line address fn file : Text} {n : Nat}
    (three : words (locInfo line) = [address,fn,'(' :: (file ++ ':' :: decimal n) ++ [')']])
    (fnPlain : ∀ c ∈ fn, isSpace c = false) (filePlain : ∀ c ∈ file, isSpace c = false)
    (noColon : ':' ∉ file) : place line = .ok ⟨fn,file,n⟩ := by
  have number : ∀ c ∈ decimal (n : Int), isSpace c = false := by
    intro c inside
    rcases decimalChar inside with rfl | digit
    · rfl
    · exact digitPlain digit
  have colons : (file ++ ':' :: decimal n).splitOn ':' = [file,decimal n] := by
    rw [List.splitOn_append_cons_self_of_not_mem noColon,
      List.splitOn_eq_singleton (decimalAvoids ⟨by decide,by decide⟩ _)]
  have bare : (('(' :: (file ++ ':' :: decimal n) ++ [')']).drop 1).dropLast =
      file ++ ':' :: decimal n := by
    rw [List.cons_append,List.drop_succ_cons,List.drop_zero,List.dropLast_concat]
  simp only [place,three,bare,colons,stripPlain number,stripPlain fnPlain,stripPlain filePlain,
    pyIntPlain]

theorem placeWords {line : Text} (other : (words (locInfo line)).length ≠ 3) :
    place line = .error .valueError := by
  unfold place
  split
  · rename_i three
    rw [three] at other
    exact absurd rfl other
  · rfl

theorem upToLastOf {c : Char} (text : Text) {rest : Text} (absent : c ∉ rest) :
    upToLast c (text ++ c :: rest) = text ++ [c] := by
  have skipped : ∀ d ∈ rest.reverse, decide (d ≠ c) = true := fun d inside =>
    decide_eq_true (fun same => absent (same ▸ List.mem_reverse.mp inside))
  rw [upToLast,List.reverse_append,List.reverse_cons,List.append_assoc,
    List.dropWhile_append_of_pos skipped]
  simp

theorem bracesOf {first v rest : Text} (noOpen : '{' ∉ first) (some_ : v ≠ [])
    (noClose : '}' ∉ rest) : braces (first ++ ('{' :: v ++ '}' :: rest)) = some ('{' :: v ++ ['}']) := by
  have skipped : ∀ c ∈ first, decide (c ≠ '{') = true := fun c inside =>
    decide_eq_true (fun same => noOpen (same ▸ inside))
  have from_ : (first ++ ('{' :: v ++ '}' :: rest)).dropWhile (· ≠ '{') = '{' :: v ++ '}' :: rest := by
    rw [List.dropWhile_append_of_pos skipped]
    simp
  have long : 3 ≤ ('{' :: v ++ ['}']).length := by
    have := List.length_pos_iff.mpr some_
    simp only [List.cons_append,List.length_cons,List.length_append,List.length_nil]
    omega
  rw [braces,from_,upToLastOf _ noClose]
  exact if_pos long

theorem varInfoGroup {line group : Text} (found : braces line = some group)
    (named : (before unknownobj group).isSome = false) :
    varInfo line = some (group.drop 1).dropLast := by
  unfold varInfo
  rw [found]
  exact if_neg (Bool.eq_false_iff.mp named)

theorem varInfoOf {first v rest : Text} (noOpen : '{' ∉ first) (some_ : v ≠ [])
    (noClose : '}' ∉ rest) (named : (before unknownobj ('{' :: v ++ ['}'])).isSome = false) :
    varInfo (first ++ ('{' :: v ++ '}' :: rest)) = some v := by
  rw [varInfoGroup (bracesOf noOpen some_ noClose) named,List.cons_append,List.drop_succ_cons,
    List.drop_zero,List.dropLast_concat]

end Autonomizer.Vg2Dy
