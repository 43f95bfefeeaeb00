import Mathlib
import Autonomizer.KeepFirst
import Autonomizer.Vg2Dy

/-! TNT_(emit_insn): a record of the taint log for each location that is not in dumpSet
yet. The names, numbers and flows a record prints are inputs of the event. -/
namespace Autonomizer.Taintgrind
open Format KeepFirst Vg2Dy

inductive Source where
  | srcloc (file : Text) (lineno : Nat)
  | object (obj : Text)
  | unknown
  deriving DecidableEq, Repr

structure Location where
  eip : Nat
  fn : Option Text
  source : Source
  deriving DecidableEq, Repr

/- %lX and %llx. -/
def hexUpper (n : Nat) : Text := (Nat.toDigits 16 n).map Char.toUpper
def hexLower (n : Nat) : Text := Nat.toDigits 16 n

/- VG_(describe_IP), for humans to read. -/
def describeIP (l : Location) : Text :=
  "0x".toList ++ hexUpper l.eip ++ ": ".toList ++ l.fn.getD "???".toList ++
  match l.source with
  | .srcloc file lineno => " (".toList ++ file ++ ":".toList ++ decimal lineno ++ ")".toList
  | .object obj => " (in ".toList ++ obj ++ ")".toList
  | .unknown => []

/- A statement that survives exit_early. A load or a store describes its address as
varname; another statement may have a type that is printed before its flow. -/
inductive Stmt where
  | store (assem varname flow : Text)
  | load (addrIsTmp ltmpTainted : Bool) (assem varname flow : Text)
  | other (insnType : Option Text) (flow : Text)
  deriving DecidableEq, Repr

structure Event where
  ip : Location
  value : Nat
  stmt : Stmt
  deriving DecidableEq, Repr

def runTimeValue (value : Nat) : Text := " | 0x".toList ++ hexLower value ++ " | ".toList

def printInsnType (value : Nat) : Stmt → Text
  | .store assem _ _ => assem ++ " | Store".toList ++ runTimeValue value
  | .load _ _ assem _ _ => assem ++ " | Load".toList ++ runTimeValue value
  | .other none _ => []
  | .other (some insnType) _ => insnType ++ runTimeValue value

/- The variable print_info_flow prints in braces, and what follows it. -/
def infoFlow : Stmt → Option Text × Text
  | .store _ varname flow => (some varname,flow)
  | .load addrIsTmp ltmpTainted _ varname flow =>
      if addrIsTmp ∨ ltmpTainted then (some varname,flow) else (none,[])
  | .other _ flow => (none,flow)

def inBraces : Option Text → Text
  | some varname => ['{'] ++ varname ++ ['}']
  | none => []

def Event.record (e : Event) : Text :=
  describeIP e.ip ++ " | ".toList ++ printInsnType e.value e.stmt ++
  inBraces (infoFlow e.stmt).1 ++ (infoFlow e.stmt).2

def Event.line (e : Event) : Text := e.record ++ ['\n']

structure Tool where
  dumpSet : Finset Text
  log : Text

def fnname (e : Event) : Text := describeIP e.ip

def emitInsn (s : Tool) (e : Event) : Tool :=
  if fnname e ∈ s.dumpSet then s else ⟨insert (fnname e) s.dumpSet,s.log ++ e.line⟩

def emitAll (events : List Event) : Tool := events.foldl emitInsn ⟨∅,[]⟩

def emitEvery (events : List Event) : Text := events.flatMap Event.line

/- The pairs Vg2Dy can take from the braces of a log. -/
def Extracted (log : Text) (p : Text × Text) : Prop := ∃ line ∈ lines log, told line = some p

def Ended (log : Text) : Prop := log = [] ∨ ∃ text, log = text ++ ['\n']

theorem endedLine (log : Text) (e : Event) : Ended (log ++ e.line) :=
  .inr ⟨log ++ e.record,by simp [Event.line]⟩

theorem extractedAppend {log : Text} (ended : Ended log) (more : Text) (p : Text × Text) :
    Extracted (log ++ more) p ↔ Extracted log p ∨ Extracted more p := by
  have split : lines (log ++ more) = lines log ++ lines more := by
    rcases ended with rfl | ⟨text,rfl⟩
    · rfl
    · rw [List.append_assoc]
      exact linesAppend text more
  unfold Extracted
  rw [split]
  simp only [List.mem_append,or_and_right,exists_or]

theorem extractedEvery (events : List Event) (p : Text × Text) :
    Extracted (emitEvery events) p ↔ ∃ e ∈ events, Extracted e.line p := by
  have ended (e : Event) : Ended e.line := endedLine [] e
  induction events with
  | nil => simp [emitEvery,Extracted,lines]
  | cons e rest ih =>
    rw [emitEvery,List.flatMap_cons,extractedAppend (ended e)]
    change _ ∨ Extracted (emitEvery rest) p ↔ _
    simp [ih]

/- After a run dumpSet holds the locations of its events, and the log has the first event
at each of them. -/
theorem emitAllKeeps (events : List Event) :
    (∀ name, name ∈ (emitAll events).dumpSet ↔ name ∈ (keepFirst fnname events).map fnname) ∧
    (emitAll events).log = emitEvery (keepFirst fnname events) := by
  induction events using List.reverseRecOn with
  | nil => exact ⟨by simp [emitAll,keepFirst],rfl⟩
  | append_singleton events e ih =>
    obtain ⟨dumped,log⟩ := ih
    have step : emitAll (events ++ [e]) = emitInsn (emitAll events) e := by simp [emitAll]
    rw [step,keepFirstSnoc,add,emitInsn]
    by_cases seen : fnname e ∈ (emitAll events).dumpSet
    · rw [if_pos seen,if_pos ((dumped _).mp seen)]
      exact ⟨dumped,log⟩
    · rw [if_neg seen,if_neg (fun inside => seen ((dumped _).mpr inside))]
      refine ⟨fun name => ?_,by simp [log,emitEvery]⟩
      rw [Finset.mem_insert,dumped name,List.map_append,List.mem_append,List.map_singleton,
        List.mem_singleton,or_comm]

theorem extractedAll (events : List Event) (p : Text × Text) :
    Extracted (emitAll events).log p ↔ ∃ e, First fnname events e ∧ Extracted e.line p := by
  rw [(emitAllKeeps events).2,extractedEvery]
  exact exists_congr (fun e => and_congr (memKeepFirst fnname events e) Iff.rfl)

/- The log tells what the first event at each location tells. That is everything exactly
when whatever an event tells is told by the first event at some location. -/
theorem firstsTold (events : List Event) :
    (∀ p, Extracted (emitAll events).log p ↔ ∃ e, First fnname events e ∧ Extracted e.line p) ∧
    (∀ p, Extracted (emitAll events).log p → Extracted (emitEvery events) p) ∧
    ((∀ p, Extracted (emitAll events).log p ↔ Extracted (emitEvery events) p) ↔
      ∀ e ∈ events, ∀ p, Extracted e.line p → ∃ d, First fnname events d ∧ Extracted d.line p) := by
  have log := extractedAll events
  have subset (p) (told : Extracted (emitAll events).log p) : Extracted (emitEvery events) p := by
    obtain ⟨e,first,here⟩ := (log p).mp told
    exact (extractedEvery _ p).mpr ⟨e,firstMem fnname first,here⟩
  refine ⟨log,subset,?_⟩
  constructor
  · intro same e inside p here
    exact (log p).mp ((same p).mpr ((extractedEvery events p).mpr ⟨e,inside,here⟩))
  · intro covered p
    refine ⟨subset p,fun every => ?_⟩
    obtain ⟨e,inside,here⟩ := (extractedEvery events p).mp every
    exact (log p).mpr (covered e inside p here)

theorem hexChar {n : Nat} {c : Char} (member : c ∈ Nat.toDigits 16 n) :
    ∃ d < 16, c = Nat.digitChar d := by
  induction n using Nat.strong_induction_on with
  | _ n ih =>
    by_cases small : n < 16
    · rw [Nat.toDigits_of_lt_base small] at member
      exact ⟨n,small,List.mem_singleton.mp member⟩
    · rw [Nat.toDigits_of_base_le (by omega) (by omega)] at member
      rcases List.mem_append.mp member with before | last
      · exact ih (n / 16) (by omega) before
      · exact ⟨n % 16,by omega,List.mem_singleton.mp last⟩

theorem hexPlain {n : Nat} {c : Char} (member : c ∈ hexUpper n) : isSpace c = false ∧ c ≠ '|' := by
  obtain ⟨d,inside,rfl⟩ := List.mem_map.mp member
  obtain ⟨k,small,rfl⟩ := hexChar inside
  interval_cases k <;> decide

def Word (name : Text) : Prop := name ≠ [] ∧ ∀ c ∈ name, isSpace c = false ∧ c ≠ '|'

def address (l : Location) : Text := "0x".toList ++ hexUpper l.eip ++ [':']

theorem addressWord (l : Location) : Word (address l) := by
  refine ⟨by simp [address],fun c member => ?_⟩
  simp only [address,List.mem_append] at member
  rcases member with (zero | hex) | colon
  · have two : "0x".toList = ['0','x'] := by decide
    rw [two,List.mem_pair] at zero
    rcases zero with rfl | rfl <;> decide
  · exact hexPlain hex
  · cases List.mem_singleton.mp colon
    decide

def fnText (l : Location) : Text := l.fn.getD "???".toList

/- The rest of a location: the function, and the source in brackets. -/
def sourceText : Source → Text
  | .srcloc file lineno => '(' :: (file ++ ':' :: decimal lineno) ++ [')']
  | .object obj => "(in ".toList ++ obj ++ [')']
  | .unknown => []

theorem describeParts {l : Location} (known : l.source ≠ .unknown) :
    describeIP l = address l ++ ' ' :: (fnText l ++ ' ' :: sourceText l.source) := by
  have colon : ": ".toList = [':',' '] := by decide
  have open_ : " (".toList = [' ','('] := by decide
  have in_ : " (in ".toList = ' ' :: "(in ".toList := by decide
  have one : ":".toList = [':'] := by decide
  have close : ")".toList = [')'] := by decide
  rcases l with ⟨eip,fn,source⟩
  cases source with
  | unknown => exact absurd rfl known
  | srcloc file lineno =>
    simp only [describeIP,address,fnText,sourceText,colon,open_,one,close,List.append_assoc,
      List.cons_append,List.nil_append]
  | object obj =>
    simp only [describeIP,address,fnText,sourceText,colon,in_,close,List.append_assoc,
      List.cons_append,List.nil_append]

theorem describeUnknown {l : Location} (unknown : l.source = .unknown) :
    describeIP l = address l ++ ' ' :: fnText l := by
  have colon : ": ".toList = [':',' '] := by decide
  rcases l with ⟨eip,fn,source⟩
  cases unknown
  simp only [describeIP,address,fnText,colon,List.append_assoc,List.cons_append,List.nil_append,
    List.append_nil]

theorem locInfoOf {text : Text} (noBar : '|' ∉ text) (rest : Text) :
    locInfo (text ++ (" |".toList ++ rest)) = text ++ [' '] := by
  have bar : " |".toList = [' ','|'] := by decide
  have taken : ∀ c ∈ text ++ [' '], decide (c ≠ '|') = true := by
    intro c inside
    refine decide_eq_true (fun same => ?_)
    rcases List.mem_append.mp inside with here | last
    · exact noBar (same ▸ here)
    · cases List.mem_singleton.mp last
      cases same
  have parts : text ++ (" |".toList ++ rest) = (text ++ [' ']) ++ ('|' :: rest) := by
    rw [bar]
    simp
  rw [locInfo,parts,List.takeWhile_append_of_pos taken]
  simp

theorem wordWords {name : Text} (word : Word name) : words name = [name] :=
  wordsOne word.1 (fun c inside => (word.2 c inside).1)

theorem locationWords {l : Location} (noBar : '|' ∉ describeIP l) (rest : Text) :
    words (locInfo (describeIP l ++ (" |".toList ++ rest))) =
      address l :: (words (fnText l) ++ words (sourceText l.source)) := by
  have blank : isSpace ' ' = true := rfl
  have none_ : words [] = [] := rfl
  by_cases known : l.source = .unknown
  · rw [locInfoOf noBar,describeUnknown known,known,List.append_assoc,List.cons_append,
      wordsAppend _ _ blank,wordWords (addressWord l),wordsAppend _ _ blank]
    rfl
  · rw [locInfoOf noBar,describeParts known,List.append_assoc,List.cons_append,List.append_assoc,
      List.cons_append,wordsAppend _ _ blank,wordsAppend _ _ blank,wordWords (addressWord l),
      wordsAppend _ _ blank,none_,List.append_nil]
    rfl

theorem decimalPlain {n : Int} {c : Char} (member : c ∈ decimal n) : isSpace c = false ∧ c ≠ '|' := by
  rcases decimalChar member with rfl | digit
  · decide
  · exact ⟨Binary64.digitPlain digit,fun same => (by subst same; cases digit)⟩

/- function (file:line), both in one word. -/
structure Located (l : Location) (fn file : Text) (lineno : Nat) : Prop where
  function : fnText l = fn
  source : l.source = .srcloc file lineno
  word : Word fn
  fileWord : ∀ c ∈ file, isSpace c = false ∧ c ≠ '|' ∧ c ≠ ':'

theorem sourceWord {file : Text} (plain : ∀ c ∈ file, isSpace c = false ∧ c ≠ '|' ∧ c ≠ ':')
    (lineno : Nat) : Word (sourceText (.srcloc file lineno)) := by
  refine ⟨by simp [sourceText],fun c member => ?_⟩
  simp only [sourceText,List.mem_append,List.mem_cons,List.not_mem_nil,or_false] at member
  rcases member with (rfl | inside | rfl | number) | rfl
  · decide
  · exact ⟨(plain c inside).1,(plain c inside).2.1⟩
  · decide
  · exact decimalPlain number
  · decide

theorem locatedNoBar {l : Location} {fn file : Text} {lineno : Nat} (located : Located l fn file lineno) :
    '|' ∉ describeIP l := by
  have parts : ∀ c ∈ describeIP l, c ≠ '|' := by
    rw [describeParts (by rw [located.source]; nofun),located.function,located.source]
    intro c member
    simp only [List.mem_append,List.mem_cons] at member
    rcases member with here | rfl | here | rfl | here
    · exact ((addressWord l).2 c here).2
    · decide
    · exact (located.word.2 c here).2
    · decide
    · exact ((sourceWord located.fileWord lineno).2 c here).2
  exact fun inside => parts _ inside rfl

theorem placeFile {l : Location} {fn file : Text} {lineno : Nat} (located : Located l fn file lineno)
    (rest : Text) : place (describeIP l ++ (" |".toList ++ rest)) = .ok ⟨fn,file,lineno⟩ := by
  have split := locationWords (locatedNoBar located) rest
  rw [located.function,located.source,wordWords located.word,
    wordWords (sourceWord located.fileWord lineno)] at split
  exact placeThree split (fun c inside => (located.word.2 c inside).1)
    (fun c inside => (located.fileWord c inside).1) (fun inside => (located.fileWord _ inside).2.2 rfl)

/- Any other number of words is no place: main raises on a function in an object, and on
a function whose name has several words. -/
theorem noPlace {l : Location} (noBar : '|' ∉ describeIP l)
    (other : (words (fnText l)).length + (words (sourceText l.source)).length ≠ 2) (rest : Text) :
    place (describeIP l ++ (" |".toList ++ rest)) = .error .valueError := by
  refine placeWords ?_
  rw [locationWords noBar,List.length_cons,List.length_append]
  omega

theorem lineParts (e : Event) : e.line = describeIP e.ip ++ (" |".toList ++
    (' ' :: (printInsnType e.value e.stmt ++ inBraces (infoFlow e.stmt).1 ++ (infoFlow e.stmt).2 ++
      ['\n']))) := by
  have bar : " | ".toList = " |".toList ++ [' '] := by decide
  simp only [Event.line,Event.record,bar,List.append_assoc,List.cons_append,List.nil_append]

theorem beginsHex (l : Location) (rest : Text) :
    "0x".toList.isPrefixOf (describeIP l ++ rest) = true := by
  rw [List.isPrefixOf_iff_prefix]
  simp only [describeIP,List.append_assoc]
  exact List.prefix_append _ _

def readAndStore : List Event :=
  let ip : Location := ⟨0x4005D3,some "main".toList,.srcloc "foo.c".toList 12⟩
  [⟨ip,5,.other none "t5_1 <- r2_7".toList⟩,
   ⟨ip,5,.store "add dword ptr [rbp - 4], eax".toList "x".toList "x:1ffefff <- t5_1".toList⟩]

/- The store of the instruction is not printed, and its variable is lost. -/
theorem storeSuppressed : Extracted (emitEvery readAndStore) ("main".toList,"x".toList) ∧
    ¬ Extracted (emitAll readAndStore).log ("main".toList,"x".toList) := by
  unfold Extracted
  decide +kernel

end Autonomizer.Taintgrind
