import Mathlib
import Autonomizer.Format

/-! Functions in the text of a Python file, as far as binding goes: the parameters of a
definition, the lines below it, and what a call by position binds. -/
namespace Autonomizer.PySource
open Format

/- The keywords of the language, and the two constants it lets nobody bind. -/
def reserved : List Text :=
  ["and","as","assert","break","class","continue","def","del","elif","else","except","exec",
    "finally","for","from","global","if","import","in","is","lambda","not","or","pass","print",
    "raise","return","try","while","with","yield","None","__debug__"].map String.toList

def wordChar (c : Char) : Bool := c.isAlphanum || c = '_'

def identifier (name : Text) : Bool :=
  decide (name ≠ []) && !name.head?.any Char.isDigit && name.all wordChar && decide (name ∉ reserved)

def splitNames (inside : Text) : List Text :=
  if inside = [] then [] else (inside.splitOn ',').map (fun name => name.dropWhile isSpace)

/- The names from the given words to the closing character, on a line that begins so. -/
def listed (words : Text) (close : Char) (line : Text) : Option (List Text) :=
  if words <+: line then some (splitNames ((line.drop words.length).takeWhile (· ≠ close))) else none

def indented (line : Text) : Bool := line.head? = some ' ' || line = ['\n']

structure PyFunction where
  params : List Text
  body : List Text
  deriving DecidableEq, Repr

def defWords (f : Text) : Text := "def ".toList ++ f ++ "(".toList

/- The function that has the name f at the end of the file: the last definition. -/
def functionAt (f : Text) : List Text → Option PyFunction
  | [] => none
  | line :: rest =>
      match functionAt f rest with
      | some later => some later
      | none => (listed (defWords f) ')' line).map (fun params => ⟨params,rest.takeWhile indented⟩)

def PyFunction.globals (fn : PyFunction) : List Text :=
  (fn.body.filterMap (listed "  global ".toList '\n')).flatten

/- Whether Python compiles the definition. -/
def PyFunction.compiles (fn : PyFunction) : Bool :=
  decide fn.params.Nodup && fn.params.all identifier && fn.params.all (fun p => p ∉ fn.globals)

section
variable {α : Type}

def PyFunction.call (fn : PyFunction) (args : List α) : Option (Text → Option α) :=
  if fn.compiles ∧ args.length = fn.params.length then some (fun x => (fn.params.zip args).lookup x)
  else none

/- The arguments of the first call of g whose result is kept; a parameter of that name
would hide the function. -/
def PyFunction.argsOf (fn : PyFunction) (g : Text) : Option (List Text) :=
  if g ∈ fn.params then none
  else fn.body.findSome? (listed ("    result = ".toList ++ g ++ "(".toList) ')')

/- The values that a call made while f runs with env passes on to g, as g's parameters. -/
def innerCall (file : List Text) (f g : Text) (env : Text → Option α) : Option (Text → Option α) := do
  let fn ← functionAt f file
  let names ← fn.argsOf g
  let args ← names.mapM env
  (← functionAt g file).call args

end

theorem wordPlain {c : Char} (word : wordChar c = true) :
    c ≠ ',' ∧ c ≠ ')' ∧ c ≠ '\n' ∧ isSpace c = false := by
  refine ⟨?_,?_,?_,?_⟩
  · rintro rfl; cases word
  · rintro rfl; cases word
  · rintro rfl; cases word
  · cases blank : isSpace c with
    | false => rfl
    | true =>
      simp only [isSpace,Bool.or_eq_true,decide_eq_true_eq] at blank
      rcases blank with ((((h | h) | h) | h) | h) | h <;> (subst h; cases word)

theorem identifierChars {name : Text} (ok : identifier name = true) :
    name ≠ [] ∧ ∀ c ∈ name, wordChar c = true := by
  simp only [identifier,Bool.and_eq_true,decide_eq_true_eq] at ok
  exact ⟨ok.1.1.1,fun c inside => List.all_eq_true.mp ok.1.2 c inside⟩

theorem identifierAvoids {name : Text} (ok : identifier name = true) :
    ',' ∉ name ∧ ')' ∉ name ∧ '\n' ∉ name := by
  have chars := (identifierChars ok).2
  exact ⟨fun h => (wordPlain (chars _ h)).1 rfl,fun h => (wordPlain (chars _ h)).2.1 rfl,
    fun h => (wordPlain (chars _ h)).2.2.1 rfl⟩

/- ', ' and a name, for each name. -/
def eachAfter (names : List Text) : Text := names.flatMap (fun name => ',' :: ' ' :: name)

theorem eachAvoids {names : List Text} {c : Char} (other : c ≠ ',' ∧ c ≠ ' ')
    (all : ∀ name ∈ names, c ∉ name) : c ∉ eachAfter names := by
  intro inside
  obtain ⟨name,among,here⟩ := List.mem_flatMap.mp inside
  rcases List.mem_cons.mp here with same | here
  · exact other.1 same
  · rcases List.mem_cons.mp here with same | here
    · exact other.2 same
    · exact all name among here

theorem splitEach {first : Text} {rest : List Text} (whole : ',' ∉ first)
    (all : ∀ name ∈ rest, ',' ∉ name) :
    (first ++ eachAfter rest).splitOn ',' = first :: rest.map (' ' :: ·) := by
  induction rest generalizing first with
  | nil => simpa [eachAfter] using List.splitOn_eq_singleton whole
  | cons name rest ih =>
    have next : ',' ∉ ' ' :: name := by
      simpa using all name List.mem_cons_self
    have shape : first ++ eachAfter (name :: rest) =
        first ++ ',' :: (' ' :: name ++ eachAfter rest) := by
      simp [eachAfter]
    rw [shape,List.splitOn_append_cons_self_of_not_mem whole,
      ih next (fun other inside => all other (List.mem_cons_of_mem name inside)),List.map_cons]

theorem identifierKept {name : Text} (ok : identifier name = true) :
    name.dropWhile isSpace = name := by
  obtain ⟨some_,chars⟩ := identifierChars ok
  obtain ⟨c,rest,rfl⟩ := List.exists_cons_of_ne_nil some_
  simp [(wordPlain (chars c List.mem_cons_self)).2.2.2]

theorem listedNames {words first tail : Text} {rest : List Text}
    (ok : ∀ name ∈ first :: rest, identifier name = true) :
    listed words ')' (words ++ (first ++ eachAfter rest ++ ')' :: tail)) = some (first :: rest) := by
  have own := ok first List.mem_cons_self
  have others (name : Text) (inside : name ∈ rest) := ok name (List.mem_cons_of_mem first inside)
  have open_ : ')' ∉ first ++ eachAfter rest := by
    rw [List.mem_append,not_or]
    exact ⟨(identifierAvoids own).2.1,
      eachAvoids (by decide) (fun name inside => (identifierAvoids (others name inside)).2.1)⟩
  have taken : (first ++ eachAfter rest ++ ')' :: tail).takeWhile (· ≠ ')') =
      first ++ eachAfter rest := by
    have all : ∀ c ∈ first ++ eachAfter rest, decide (c ≠ ')') = true := by
      intro c inside
      exact decide_eq_true (fun same => open_ (same ▸ inside))
    rw [List.takeWhile_append_of_pos all]
    simp
  have some_ : first ++ eachAfter rest ≠ [] := by
    simp [(identifierChars own).1]
  have names : (rest.map (' ' :: ·)).map (fun name => name.dropWhile isSpace) = rest := by
    rw [List.map_map]
    refine (List.map_congr_left fun name inside => ?_).trans (List.map_id rest)
    have blank : isSpace ' ' = true := rfl
    simp [Function.comp,blank,identifierKept (others name inside)]
  rw [listed,if_pos (List.prefix_append ..),List.drop_left,taken,splitNames,if_neg some_,
    splitEach (identifierAvoids own).1 (fun name inside => (identifierAvoids (others name inside)).1),
    List.map_cons,names,identifierKept own]

theorem listedOther {words text : Text} {close : Char} (i : Nat) (bound : i < words.length)
    (differs : text[i]? ≠ words[i]?) : listed words close text = none := by
  refine if_neg (fun begins => differs ?_)
  obtain ⟨rest,rfl⟩ := begins
  exact List.getElem?_append_left bound

theorem functionAppend {f : Text} {before after : List Text} {fn : PyFunction}
    (found : functionAt f after = some fn) : functionAt f (before ++ after) = some fn := by
  induction before with
  | nil => exact found
  | cons line rest ih => rw [List.cons_append,functionAt,ih]

theorem functionLine {f line : Text} {before after : List Text} {params : List Text}
    (defines : listed (defWords f) ')' line = some params) (later : functionAt f after = none) :
    functionAt f (before ++ line :: after) = some ⟨params,after.takeWhile indented⟩ := by
  refine functionAppend ?_
  rw [functionAt,later,defines]
  rfl

theorem functionNone {f : Text} {file : List Text}
    (none_ : ∀ line ∈ file, listed (defWords f) ')' line = none) : functionAt f file = none := by
  induction file with
  | nil => rfl
  | cons line rest ih =>
    rw [functionAt,ih (fun other inside => none_ other (List.mem_cons_of_mem line inside)),
      none_ line List.mem_cons_self]
    rfl

def OneLine (line : Text) : Prop := ∃ text, line = text ++ ['\n'] ∧ '\n' ∉ text

theorem linesFlatten {ls : List Text} (each : ∀ line ∈ ls, OneLine line) : lines ls.flatten = ls := by
  induction ls with
  | nil => rfl
  | cons line rest ih =>
    obtain ⟨text,rfl,whole⟩ := each line List.mem_cons_self
    rw [List.flatten_cons,List.append_assoc,List.singleton_append,linesCons whole,
      ih (fun other inside => each other (List.mem_cons_of_mem _ inside))]

theorem linesAfter {text : Text} {ls : List Text} (ends : text.getLast? = some '\n')
    (each : ∀ line ∈ ls, OneLine line) : lines (text ++ ls.flatten) = lines text ++ ls := by
  obtain ⟨front,rfl⟩ := List.getLast?_eq_some_iff.mp ends
  rw [List.append_assoc,List.singleton_append,linesAppend,linesFlatten each]

section
variable {α : Type} {R : Text → α → Prop} {names : List Text} {values : List α}

theorem zipLookup (rows : List.Forall₂ R names values) {x : Text} (inside : x ∈ names) :
    ∃ v, (names.zip values).lookup x = some v ∧ R x v := by
  induction rows with
  | nil => cases inside
  | @cons name value names values own _ ih =>
    by_cases here : x = name
    · subst here
      exact ⟨value,by simp,own⟩
    · have other : (x == name) = false := beq_false_of_ne here
      obtain ⟨v,found,holds⟩ := ih ((List.mem_cons.mp inside).resolve_left here)
      exact ⟨v,by rw [List.zip_cons_cons,List.lookup_cons,other]; exact found,holds⟩

theorem callBinds {fn : PyFunction} (compiles : fn.compiles = true)
    (rows : List.Forall₂ R fn.params values) : ∃ env, fn.call values = some env ∧
      ∀ x ∈ fn.params, ∃ v, env x = some v ∧ R x v :=
  ⟨_,if_pos ⟨compiles,rows.length_eq.symm⟩,fun _ inside => zipLookup rows inside⟩

end

end Autonomizer.PySource
