import Mathlib
import Autonomizer.SrcVar
import Autonomizer.Taintgrind

/-! Vg2Dy on a log whose records are cut by warnings of Valgrind: when it extracts what
it would extract from the log without them. -/
namespace Autonomizer.TaintLog
open Format Taintgrind Vg2Dy
open SrcVar (beforeNone stripBetween)

/- A record goes on after the warning that follows its first part, and after more of them. -/
structure Cut where
  before : Text
  warning : Text
  more : List Text
  after : Text
  deriving DecidableEq, Repr

inductive Entry where
  | record (e : Event) (cut : Option Cut)
  | warning (text : Text)
  deriving DecidableEq, Repr

/- --pid-- or ==pid==, and anything up to the end of the line. -/
def Warning (text : Text) : Prop :=
  ("--".toList <+: text ∨ "==".toList <+: text) ∧ '\n' ∉ text

/- The rest of a cut record has the variable field, if there is one. -/
def Cut.Of (c : Cut) (e : Event) : Prop :=
  c.before ++ c.after = e.record ∧
  c.before <+: describeIP e.ip ++ " | ".toList ++ printInsnType e.value e.stmt ∧
  Warning c.warning ∧ ∀ w ∈ c.more, Warning w

def WellFormed : Entry → Prop
  | .record e none => '\n' ∉ e.record
  | .record e (some c) => '\n' ∉ e.record ∧ c.Of e
  | .warning text => Warning text

def pieces : Entry → List Text
  | .record e none => [e.record]
  | .record _ (some c) => (c.before ++ c.warning) :: (c.more ++ [c.after])
  | .warning text => [text]

def Entry.lines (entry : Entry) : List Text := (pieces entry).map (· ++ ['\n'])

def logLines (log : List Entry) : List Text := log.flatMap Entry.lines

def logText (log : List Entry) : Text := (logLines log).flatten

def plain (log : List Entry) : List Entry := log.filterMap fun entry => match entry with
  | .record e _ => some (.record e none)
  | .warning _ => none

/- A record whose location has a file of the source directory. -/
def Known (srcDict : SrcDict) (e : Event) : Prop :=
  ∃ file lineno, e.ip.source = .srcloc file lineno ∧ (srcDict file).isSome

/- Each (file:line) of the source directory points at an assignment that can be parsed. -/
def Parsable (srcDict : SrcDict) (log : List Entry) : Prop :=
  ∀ e cut, .record e cut ∈ log → ∀ file (lineno : Nat) source, e.ip.source = .srcloc file lineno →
    srcDict file = some source → ∃ v, checkSrcVar source lineno = .ok (some v)

/- main returns, skips every record without a known file, and gives the pairs it gives on
the log without the warning text. -/
structure Extracts (srcDict : SrcDict) (log : List Entry) : Prop where
  same : ∃ last plainLast, main srcDict (logText log) = .ok last ∧
    main srcDict (logText (plain log)) = .ok plainLast ∧ ∀ p, Printed last p ↔ Printed plainLast p
  ignores : ∀ e cut, .record e cut ∈ log → ¬ Known srcDict e → ∀ resultDict,
    (Entry.record e cut).lines.foldlM (readLine srcDict) resultDict = .ok resultDict

/- The variable between the first '{' of a text and the last '}'. -/
def Braced (text v : Text) : Prop :=
  v ≠ [] ∧ ¬ unknownobj <:+: '{' :: v ++ ['}'] ∧
    ∃ front back, text = front ++ ('{' :: v ++ '}' :: back) ∧ '{' ∉ front ∧ '}' ∉ back

/- What a line with the whole location of a record names: the function with the variable
in the braces, or without braces with the one that the source line assigns. -/
def Names (srcDict : SrcDict) (e : Event) (line : Text) (p : Text × Text) : Prop :=
  ∃ file lineno source, Located e.ip p.1 file lineno ∧ srcDict file = some source ∧
    (Braced line p.2 ∨ (∀ v, ¬ Braced line v) ∧ checkSrcVar source lineno = .ok (some p.2))

def Cut.Beyond (c : Cut) (e : Event) : Prop := describeIP e.ip ++ " |".toList <+: c.before

/- What an entry names as it is printed: a record cut before its first character is whole
on its last line, and one cut after the first has no line that begins with 0x. -/
def Shows (srcDict : SrcDict) : Entry → Text × Text → Prop
  | .record e none,p => Names srcDict e e.line p
  | .record e (some c),p => c.before = [] ∧ Names srcDict e e.line p ∨
      c.Beyond e ∧ Names srcDict e (c.before ++ c.warning ++ ['\n']) p
  | .warning _,_ => False

/- Every location is one word with its (file:line), and no cut is made inside one, nor
where the rest begins with 0x. -/
structure Legible (log : List Entry) : Prop where
  located : ∀ e cut, .record e cut ∈ log → ∃ fn file lineno, Located e.ip fn file lineno
  cuts : ∀ e c, .record e (some c) ∈ log → c.before = [] ∨ c.before = ['0'] ∨
    c.Beyond e ∧ ¬ "0x".toList <+: c.after

/- What a cut takes away another entry shows, and what it puts there a record names. -/
def Covered (srcDict : SrcDict) (log : List Entry) : Prop :=
  ∀ e c, .record e (some c) ∈ log →
    (∀ p, Names srcDict e e.line p → ∃ entry ∈ log, Shows srcDict entry p) ∧
    ∀ p, Shows srcDict (.record e (some c)) p →
      ∃ other cut, .record other cut ∈ log ∧ Names srcDict other other.line p

/- Texts that are not taken for something else: no bar in a location, no function of
blanks or with blanks around it, no colon in a function without a source, and neither a
warning of few words nor three words after another 0x where a record is cut. -/
structure Usual (log : List Entry) : Prop where
  noBar : ∀ e cut, .record e cut ∈ log → '|' ∉ describeIP e.ip
  dark : ∀ e cut, .record e cut ∈ log → ∃ c d, (fnText e.ip).head? = some c ∧ isSpace c = false ∧
    (fnText e.ip).getLast? = some d ∧ isSpace d = false
  noColon : ∀ e cut, .record e cut ∈ log → e.ip.source = .unknown →
    ∀ word ∈ words (fnText e.ip), ':' ∉ word
  long : ∀ e c, .record e (some c) ∈ log → 4 ≤ (words (locInfo (c.warning ++ ['\n']))).length
  rest : ∀ e c, .record e (some c) ∈ log → c.before ≠ [] → "0x".toList <+: c.after →
    (words (locInfo (c.after ++ ['\n']))).length ≠ 3

def Begins (line : Text) : Prop := "0x".toList.isPrefixOf line = true

theorem linesOf {all : List Text} (whole : ∀ text ∈ all, '\n' ∉ text) :
    lines (all.map (· ++ ['\n'])).flatten = all.map (· ++ ['\n']) := by
  induction all with
  | nil => rfl
  | cons text rest ih =>
    have more := ih (fun t inside => whole t (List.mem_cons_of_mem _ inside))
    rw [List.map_cons,List.flatten_cons,List.append_assoc,List.singleton_append,
      linesCons (whole text List.mem_cons_self),more]

theorem piecesWhole {entry : Entry} (wellFormed : WellFormed entry) :
    ∀ text ∈ pieces entry, '\n' ∉ text := by
  intro text member
  match entry,wellFormed with
  | .record e none,whole =>
    cases List.mem_singleton.mp member
    exact whole
  | .record e (some c),⟨whole,parts,_,first,rest⟩ =>
    rw [← parts,List.mem_append,not_or] at whole
    simp only [pieces,List.mem_cons,List.mem_append,List.not_mem_nil,or_false] at member
    rcases member with rfl | more | rfl
    · exact fun inside => (List.mem_append.mp inside).elim whole.1 first.2
    · exact (rest text more).2
    · exact whole.2
  | .warning _,warning =>
    cases List.mem_singleton.mp member
    exact warning.2

theorem logTextLines {log : List Entry} (wellFormed : ∀ entry ∈ log, WellFormed entry) :
    lines (logText log) = logLines log := by
  have all : logLines log = (log.flatMap pieces).map (· ++ ['\n']) := by
    rw [List.map_flatMap]
    rfl
  rw [logText,all]
  refine linesOf (fun text member => ?_)
  obtain ⟨entry,inside,here⟩ := List.mem_flatMap.mp member
  exact piecesWhole (wellFormed entry inside) text here

theorem memPlain {log : List Entry} {entry : Entry} :
    entry ∈ plain log ↔ ∃ e cut, .record e cut ∈ log ∧ entry = .record e none := by
  rw [plain,List.mem_filterMap]
  constructor
  · rintro ⟨found,inside,made⟩
    cases found with
    | record e cut => exact ⟨e,cut,inside,(Option.some.inj made).symm⟩
    | warning text => cases made
  · rintro ⟨e,cut,inside,rfl⟩
    exact ⟨_,inside,rfl⟩

theorem plainWellFormed {log : List Entry} (wellFormed : ∀ entry ∈ log, WellFormed entry) :
    ∀ entry ∈ plain log, WellFormed entry := by
  intro entry member
  obtain ⟨e,cut,inside,rfl⟩ := memPlain.mp member
  have here := wellFormed _ inside
  cases cut with
  | none => exact here
  | some c => exact here.1

theorem memPlainLines {log : List Entry} {line : Text} :
    line ∈ logLines (plain log) ↔ ∃ e cut, .record e cut ∈ log ∧ line = e.line := by
  rw [logLines,List.mem_flatMap]
  constructor
  · rintro ⟨entry,member,here⟩
    obtain ⟨e,cut,inside,rfl⟩ := memPlain.mp member
    exact ⟨e,cut,inside,List.mem_singleton.mp here⟩
  · rintro ⟨e,cut,inside,rfl⟩
    exact ⟨.record e none,memPlain.mpr ⟨e,cut,inside,rfl⟩,List.mem_singleton.mpr rfl⟩

theorem warningSilent {text : Text} (warning : Warning text) (rest : Text) :
    ¬ Begins (text ++ rest) := by
  rcases warning.1 with ⟨more,rfl⟩ | ⟨more,rfl⟩ <;> simp [Begins]

theorem beginsBare {text : Text} (begins : Begins (text ++ ['\n'])) : "0x".toList <+: text := by
  unfold Begins at begins
  rw [List.isPrefixOf_iff_prefix,List.prefix_concat_iff] at begins
  refine begins.resolve_left fun same => ?_
  have last := congrArg List.getLast? same
  rw [List.getLast?_concat] at last
  exact absurd last (by decide)

theorem saidSilent {srcDict : SrcDict} {line : Text} (silent : ¬ Begins line) :
    said srcDict line = .ok none := by
  unfold Begins at silent
  rw [said,if_neg silent]
  rfl

theorem upToLastNone {c : Char} {text : Text} (absent : c ∉ text) : upToLast c text = [] := by
  have skipped : ∀ d ∈ text.reverse, decide (d ≠ c) = true := fun d inside =>
    decide_eq_true (fun same => absent (same ▸ List.mem_reverse.mp inside))
  rw [upToLast,List.dropWhile_eq_nil_iff.mpr skipped,List.reverse_nil]

theorem lastSplit {c : Char} {text : Text} (inside : c ∈ text) :
    ∃ first rest, text = first ++ c :: rest ∧ c ∉ rest := by
  obtain ⟨rest,first,split,last⟩ := List.eq_append_cons_of_mem (List.mem_reverse.mpr inside)
  refine ⟨first.reverse,rest.reverse,?_,fun here => last (List.mem_reverse.mp here)⟩
  rw [← List.reverse_reverse text,split]
  simp

theorem varInfoIff {line v : Text} : varInfo line = some v ↔ Braced line v := by
  have unknown (group : Text) : (before unknownobj group).isSome = false ↔ ¬ unknownobj <:+: group := by
    rw [Option.isSome_eq_false_iff,Option.isNone_iff_eq_none]
    exact beforeNone (by decide)
  constructor
  · intro found
    unfold varInfo at found
    split at found <;> try contradiction
    next group braced =>
    split at found <;> try contradiction
    next named =>
    cases found
    unfold braces at braced
    dsimp only at braced
    split at braced <;> try contradiction
    next long =>
    cases braced
    have split := List.takeWhile_append_dropWhile (p := fun c => decide (c ≠ '{')) (l := line)
    have noOpen : '{' ∉ line.takeWhile (fun c => decide (c ≠ '{')) := fun inside => by
      have := List.mem_takeWhile_imp inside
      simp at this
    by_cases close : '}' ∈ line.dropWhile (fun c => decide (c ≠ '{'))
    · obtain ⟨first,rest,whole,last⟩ := lastSplit close
      rw [whole,upToLastOf first last] at long named ⊢
      cases first with
      | nil => simp at long
      | cons c v =>
        have begins := List.head?_dropWhile_not (fun c => decide (c ≠ '{')) line
        rw [whole] at begins
        have open_ : c = '{' := by simpa using begins
        subst open_
        have group : (('{' :: v ++ ['}']).drop 1).dropLast = v := by
          rw [List.cons_append,List.drop_succ_cons,List.drop_zero,List.dropLast_concat]
        rw [group]
        refine ⟨fun none_ => ?_,(unknown _).mp (Bool.eq_false_iff.mpr named),
          line.takeWhile (fun c => decide (c ≠ '{')),rest,?_,noOpen,last⟩
        · rw [none_] at long
          simp at long
        · rw [← whole,split]
    · rw [upToLastNone close] at long
      simp at long
  · rintro ⟨some_,named,front,back,rfl,noOpen,noClose⟩
    exact varInfoOf noOpen some_ noClose ((unknown _).mpr named)

/- A line with the whole location of a record says what it names, and nothing where its
file is not known. -/
theorem saidLocated {srcDict : SrcDict} {e : Event} {line rest fn file : Text} {lineno : Nat}
    (shape : line = describeIP e.ip ++ (" |".toList ++ rest)) (located : Located e.ip fn file lineno)
    (parsable : ∀ source, srcDict file = some source → ∃ v, checkSrcVar source lineno = .ok (some v)) :
    (∃ found, said srcDict line = .ok found) ∧
      (∀ p, said srcDict line = .ok (some p) ↔ Names srcDict e line p) ∧
      (srcDict file = none → said srcDict line = .ok none) := by
  have begins : "0x".toList.isPrefixOf line = true := by
    rw [shape]
    exact beginsHex _ _
  have placed : place line = .ok ⟨fn,file,lineno⟩ := by
    rw [shape]
    exact placeFile located rest
  have only {p : Text × Text} (names : Names srcDict e line p) : ∃ source, p.1 = fn ∧
      srcDict file = some source ∧
      (Braced line p.2 ∨ (∀ v, ¬ Braced line v) ∧ checkSrcVar source lineno = .ok (some p.2)) := by
    obtain ⟨file',lineno',source,here,found,variable_⟩ := names
    cases located.source.symm.trans here.source
    exact ⟨source,here.function.symm.trans located.function,found,variable_⟩
  have pair (p : Text × Text) (same : p.1 = fn) : p = (fn,p.2) := by rw [← same]
  simp only [said,if_pos begins,placed,bind,Except.bind]
  cases known : srcDict file with
  | none =>
    refine ⟨⟨none,rfl⟩,fun p => ⟨nofun,fun names => ?_⟩,fun _ => rfl⟩
    obtain ⟨_,_,found,_⟩ := only names
    cases known.symm.trans found
  | some source =>
    obtain ⟨w,checked⟩ := parsable source known
    have names {v : Text} (variable_ : Braced line v ∨ (∀ v, ¬ Braced line v) ∧
        checkSrcVar source lineno = .ok (some v)) : Names srcDict e line (fn,v) :=
      ⟨file,lineno,source,located,known,variable_⟩
    cases braced : varInfo line with
    | some v =>
      refine ⟨⟨_,rfl⟩,fun p => ⟨fun same => ?_,fun shown => ?_⟩,nofun⟩
      · cases same
        exact names (.inl (varInfoIff.mp braced))
      · obtain ⟨_,function,_,found | ⟨none_,_⟩⟩ := only shown
        · have same : v = p.2 := Option.some.inj (braced.symm.trans (varInfoIff.mpr found))
          rw [pair p function,← same]
          rfl
        · exact absurd (varInfoIff.mp braced) (none_ v)
    | none =>
      have none_ (v : Text) : ¬ Braced line v := fun here => by
        cases braced.symm.trans (varInfoIff.mpr here)
      simp only [checked]
      refine ⟨⟨_,rfl⟩,fun p => ⟨fun same => ?_,fun shown => ?_⟩,nofun⟩
      · cases same
        exact names (.inr ⟨none_,checked⟩)
      · obtain ⟨source',function,found,here | ⟨_,assigned⟩⟩ := only shown
        · exact absurd here (none_ _)
        · cases known.symm.trans found
          cases checked.symm.trans assigned
          rw [pair p function]
          rfl

theorem addsNothing {srcDict : SrcDict} {all : List Text} :
    (∀ resultDict, all.foldlM (readLine srcDict) resultDict = .ok resultDict) ↔
      ∀ line ∈ all, said srcDict line = .ok none := by
  constructor
  · intro unchanged line inside
    obtain ⟨returns,adds⟩ := readLines srcDict (fun _ => none) all
    obtain ⟨found,here⟩ := returns.mp ⟨_,unchanged _⟩ line inside
    cases found with
    | none => exact here
    | some p =>
      have printed := (adds _ (unchanged _) p).mpr (.inr ⟨line,inside,here⟩)
      exact absurd printed (printedNone p)
  · intro silent resultDict
    induction all with
    | nil => rfl
    | cons line rest ih =>
      rw [List.foldlM_cons,readLineSaid,silent line List.mem_cons_self]
      exact ih (fun l inside => silent l (List.mem_cons_of_mem _ inside))

theorem beyondShape {e : Event} {c : Cut} (beyond : c.Beyond e) : ∃ rest,
    c.before ++ c.warning ++ ['\n'] = describeIP e.ip ++ (" |".toList ++ rest) := by
  obtain ⟨more,same⟩ := beyond
  exact ⟨more ++ c.warning ++ ['\n'],by rw [← same]; simp only [List.append_assoc]⟩

section
variable {srcDict : SrcDict} {log : List Entry} {e : Event} {c : Cut}

theorem beyondLong (beyond : c.Beyond e) : 2 < c.before.length := by
  have long := beyond.length_le
  simp [describeIP] at long
  omega

theorem warningSaid {text : Text} (warning : Warning text) (rest : Text) :
    said srcDict (text ++ rest) = .ok none :=
  saidSilent (warningSilent warning rest)

theorem wholeSaid (parsable : Parsable srcDict log) (legible : Legible log) {cut : Option Cut}
    (member : .record e cut ∈ log) : (∃ found, said srcDict e.line = .ok found) ∧
      ∀ p, said srcDict e.line = .ok (some p) ↔ Names srcDict e e.line p := by
  obtain ⟨fn,file,lineno,located⟩ := legible.located e cut member
  obtain ⟨returns,tells,_⟩ := saidLocated (lineParts e) located fun source =>
    parsable e cut member file lineno source located.source
  exact ⟨returns,tells⟩

theorem cutLines {line : Text} : line ∈ (Entry.record e (some c)).lines ↔
    line = c.before ++ c.warning ++ ['\n'] ∨ (∃ w ∈ c.more, line = w ++ ['\n']) ∨
      line = c.after ++ ['\n'] := by
  simp only [Entry.lines,pieces,List.mem_map,List.mem_cons,List.mem_append,List.not_mem_nil,or_false]
  constructor
  · rintro ⟨text,rfl | inside | rfl,rfl⟩
    · exact .inl rfl
    · exact .inr (.inl ⟨text,inside,rfl⟩)
    · exact .inr (.inr rfl)
  · rintro (rfl | ⟨w,inside,rfl⟩ | rfl)
    · exact ⟨_,.inl rfl,rfl⟩
    · exact ⟨w,.inr (.inl inside),rfl⟩
    · exact ⟨_,.inr (.inr rfl),rfl⟩

theorem cutSaid {first last : Option (Text × Text)} (more : ∀ w ∈ c.more, Warning w)
    (head : said srcDict (c.before ++ c.warning ++ ['\n']) = .ok first)
    (foot : said srcDict (c.after ++ ['\n']) = .ok last) :
    (∀ line ∈ (Entry.record e (some c)).lines, ∃ found, said srcDict line = .ok found) ∧
      ∀ p, (∃ line ∈ (Entry.record e (some c)).lines, said srcDict line = .ok (some p)) ↔
        first = some p ∨ last = some p := by
  refine ⟨fun line inside => ?_,fun p => ⟨?_,?_⟩⟩
  · rcases cutLines.mp inside with rfl | ⟨w,there,rfl⟩ | rfl
    · exact ⟨first,head⟩
    · exact ⟨none,warningSaid (more w there) _⟩
    · exact ⟨last,foot⟩
  · rintro ⟨line,inside,here⟩
    rcases cutLines.mp inside with rfl | ⟨w,there,rfl⟩ | rfl
    · exact .inl (Except.ok.inj (head.symm.trans here))
    · cases (warningSaid (more w there) _).symm.trans here
    · exact .inr (Except.ok.inj (foot.symm.trans here))
  · rintro (rfl | rfl)
    · exact ⟨_,cutLines.mpr (.inl rfl),head⟩
    · exact ⟨_,cutLines.mpr (.inr (.inr rfl)),foot⟩

/- Of a record cut after its 0 neither part begins with 0x: the rest begins with its x. -/
theorem zeroSilent (zero : c.before = ['0']) (parts : c.before ++ c.after = e.record) :
    said srcDict (c.after ++ ['\n']) = .ok none := by
  refine saidSilent fun begins => ?_
  have record : "0x".toList <+: e.record := by
    simp only [Event.record,describeIP,List.append_assoc]
    exact List.prefix_append _ _
  have two : "0x".toList = ['0','x'] := by decide
  rw [← parts,zero,two] at record
  have behind := (List.cons_prefix_cons.mp record).2
  have again := beginsBare begins
  rw [two] at again
  cases after : c.after with
  | nil =>
    rw [after] at behind
    cases List.prefix_nil.mp behind
  | cons d rest =>
    rw [after] at again behind
    have x : 'x' = d := (List.cons_prefix_cons.mp behind).1
    have o : '0' = d := (List.cons_prefix_cons.mp again).1
    exact absurd (x.trans o.symm) (by decide)

theorem cutEntrySaid (parsable : Parsable srcDict log) (legible : Legible log)
    (wellFormed : WellFormed (.record e (some c))) (member : .record e (some c) ∈ log) :
    (∀ line ∈ (Entry.record e (some c)).lines, ∃ found, said srcDict line = .ok found) ∧
      ∀ p, (∃ line ∈ (Entry.record e (some c)).lines, said srcDict line = .ok (some p)) ↔
        Shows srcDict (.record e (some c)) p := by
  obtain ⟨_,parts,_,warning,more⟩ := wellFormed
  rcases legible.cuts e c member with start | zero | ⟨beyond,rest⟩
  · obtain ⟨⟨found,foot⟩,tells⟩ := wholeSaid parsable legible member
    have whole : c.after ++ ['\n'] = e.line := by rw [Event.line,← parts,start,List.nil_append]
    have head : said srcDict (c.before ++ c.warning ++ ['\n']) = .ok none := by
      rw [start,List.nil_append]
      exact warningSaid warning _
    obtain ⟨returns,adds⟩ := cutSaid (e := e) more head (by rw [whole]; exact foot)
    refine ⟨returns,fun p => (adds p).trans ⟨?_,?_⟩⟩
    · rintro (none_ | same)
      · cases none_
      · exact .inl ⟨start,(tells p).mp (foot.trans (congrArg _ same))⟩
    · rintro (⟨_,names⟩ | ⟨beyond,_⟩)
      · exact .inr (Except.ok.inj (foot.symm.trans ((tells p).mpr names)))
      · have long := beyondLong beyond
        rw [start] at long
        cases long
  · have head : said srcDict (c.before ++ c.warning ++ ['\n']) = .ok none := by
      refine saidSilent ?_
      rw [zero]
      rcases warning.1 with ⟨more,same⟩ | ⟨more,same⟩ <;> (rw [← same]; simp [Begins])
    obtain ⟨returns,adds⟩ := cutSaid (e := e) more head (zeroSilent zero parts)
    refine ⟨returns,fun p => (adds p).trans ⟨?_,?_⟩⟩
    · rintro (none_ | none_) <;> cases none_
    · rintro (⟨start,_⟩ | ⟨beyond,_⟩)
      · cases zero.symm.trans start
      · have long := beyondLong beyond
        rw [zero] at long
        exact absurd long (by decide)
  · obtain ⟨fn,file,lineno,located⟩ := legible.located e (some c) member
    obtain ⟨rest_,shape⟩ := beyondShape beyond
    obtain ⟨⟨found,head⟩,tells,_⟩ := saidLocated shape located fun source =>
      parsable e (some c) member file lineno source located.source
    have foot : said srcDict (c.after ++ ['\n']) = .ok none :=
      saidSilent fun begins => rest (beginsBare begins)
    obtain ⟨returns,adds⟩ := cutSaid (e := e) more head foot
    refine ⟨returns,fun p => (adds p).trans ⟨?_,?_⟩⟩
    · rintro (same | none_)
      · exact .inr ⟨beyond,(tells p).mp (head.trans (congrArg _ same))⟩
      · cases none_
    · rintro (⟨start,_⟩ | ⟨_,names⟩)
      · have long := beyondLong beyond
        rw [start] at long
        cases long
      · exact .inl (Except.ok.inj (head.symm.trans ((tells p).mpr names)))

theorem entrySaid (parsable : Parsable srcDict log) (legible : Legible log)
    (wellFormed : ∀ entry ∈ log, WellFormed entry) {entry : Entry} (member : entry ∈ log) :
    (∀ line ∈ entry.lines, ∃ found, said srcDict line = .ok found) ∧
      ∀ p, (∃ line ∈ entry.lines, said srcDict line = .ok (some p)) ↔ Shows srcDict entry p := by
  match entry with
  | .warning text =>
    have silent : said srcDict (text ++ ['\n']) = .ok none := warningSaid (wellFormed _ member) _
    refine ⟨fun line inside => ?_,fun p => ⟨?_,False.elim⟩⟩
    · cases List.mem_singleton.mp inside
      exact ⟨none,silent⟩
    · rintro ⟨line,inside,here⟩
      cases List.mem_singleton.mp inside
      cases silent.symm.trans here
  | .record e none =>
    obtain ⟨returns,tells⟩ := wholeSaid parsable legible member
    refine ⟨fun line inside => ?_,fun p => ⟨?_,fun names => ⟨e.line,List.mem_singleton.mpr rfl,(tells p).mpr names⟩⟩⟩
    · cases List.mem_singleton.mp inside
      exact returns
    · rintro ⟨line,inside,here⟩
      cases List.mem_singleton.mp inside
      exact (tells p).mp here
  | .record e (some c) => exact cutEntrySaid parsable legible (wellFormed _ member) member

/- What a legible log says, entry by entry, and what it says without the warnings. -/
theorem logSaid (parsable : Parsable srcDict log) (legible : Legible log)
    (wellFormed : ∀ entry ∈ log, WellFormed entry) (p : Text × Text) :
    (∃ line ∈ logLines log, said srcDict line = .ok (some p)) ↔ ∃ entry ∈ log, Shows srcDict entry p := by
  constructor
  · rintro ⟨line,inside,here⟩
    obtain ⟨entry,member,inside⟩ := List.mem_flatMap.mp inside
    exact ⟨entry,member,((entrySaid parsable legible wellFormed member).2 p).mp ⟨line,inside,here⟩⟩
  · rintro ⟨entry,member,shows⟩
    obtain ⟨line,inside,here⟩ := ((entrySaid parsable legible wellFormed member).2 p).mpr shows
    exact ⟨line,List.mem_flatMap.mpr ⟨entry,member,inside⟩,here⟩

theorem plainSaid (parsable : Parsable srcDict log) (legible : Legible log) (p : Text × Text) :
    (∃ line ∈ logLines (plain log), said srcDict line = .ok (some p)) ↔
      ∃ e cut, .record e cut ∈ log ∧ Names srcDict e e.line p := by
  constructor
  · rintro ⟨line,inside,here⟩
    obtain ⟨e,cut,member,rfl⟩ := memPlainLines.mp inside
    exact ⟨e,cut,member,((wholeSaid parsable legible member).2 p).mp here⟩
  · rintro ⟨e,cut,member,names⟩
    exact ⟨e.line,memPlainLines.mpr ⟨e,cut,member,rfl⟩,((wholeSaid parsable legible member).2 p).mpr names⟩

theorem unknownSilent (parsable : Parsable srcDict log) (legible : Legible log)
    (wellFormed : ∀ entry ∈ log, WellFormed entry) {cut : Option Cut} (member : .record e cut ∈ log)
    (unknown : ¬ Known srcDict e) (resultDict : ResultDict) :
    (Entry.record e cut).lines.foldlM (readLine srcDict) resultDict = .ok resultDict := by
  have none_ (line : Text) (p : Text × Text) (names : Names srcDict e line p) : False := by
    obtain ⟨file,lineno,source,located,found,_⟩ := names
    exact unknown ⟨file,lineno,located.source,by rw [found]; rfl⟩
  refine addsNothing.mpr (fun line inside => ?_) resultDict
  obtain ⟨returns,tells⟩ := entrySaid parsable legible wellFormed member
  obtain ⟨found,here⟩ := returns line inside
  cases found with
  | none => exact here
  | some p =>
    have shows := (tells p).mp ⟨line,inside,here⟩
    cases cut with
    | none => exact (none_ _ p shows).elim
    | some c => exact (shows.elim (fun shown => none_ _ p shown.2) fun shown => none_ _ p shown.2).elim

theorem legibleExtracts (wellFormed : ∀ entry ∈ log, WellFormed entry) (parsable : Parsable srcDict log)
    (legible : Legible log) (covered : Covered srcDict log) : Extracts srcDict log := by
  have reads := mainReads srcDict (logText log)
  have plainReads := mainReads srcDict (logText (plain log))
  rw [logTextLines wellFormed] at reads
  rw [logTextLines (plainWellFormed wellFormed)] at plainReads
  obtain ⟨last,ran⟩ := reads.1.mpr fun line inside => by
    obtain ⟨entry,member,here⟩ := List.mem_flatMap.mp inside
    exact (entrySaid parsable legible wellFormed member).1 line here
  obtain ⟨plainLast,plainRan⟩ := plainReads.1.mpr fun line inside => by
    obtain ⟨e,cut,member,rfl⟩ := memPlainLines.mp inside
    exact (wholeSaid parsable legible member).1
  refine ⟨⟨last,plainLast,ran,plainRan,fun p => ?_⟩,fun e cut member unknown =>
    unknownSilent parsable legible wellFormed member unknown⟩
  rw [reads.2 last ran p,plainReads.2 plainLast plainRan p,logSaid parsable legible wellFormed,
    plainSaid parsable legible]
  constructor
  · rintro ⟨entry,member,shows⟩
    match entry with
    | .record e none => exact ⟨e,none,member,shows⟩
    | .record e (some c) => exact (covered e c member).2 p shows
    | .warning text => exact shows.elim
  · rintro ⟨e,cut,member,names⟩
    cases cut with
    | none => exact ⟨_,member,names⟩
    | some c => exact (covered e c member).1 p names

end

theorem wordsCons (c : Char) (text : Text) (dark : isSpace c = false) : ∃ word rest,
    words (c :: text) = (c :: word) :: rest ∧ (words text = rest ∨ words text = word :: rest) := by
  have split := List.takeWhile_append_dropWhile (p := fun c => !isSpace c) (l := text)
  let word := text.takeWhile (fun c => !isSpace c)
  have plain : ∀ d ∈ word, isSpace d = false := fun d inside => by
    simpa using List.mem_takeWhile_imp inside
  have first : ∀ d ∈ c :: word, isSpace d = false := List.forall_mem_cons.mpr ⟨dark,plain⟩
  have one : words (c :: word) = [c :: word] := wordsOne (List.cons_ne_nil _ _) first
  have self : words word = [] ∨ words word = [word] := by
    rcases List.eq_nil_or_concat word with none_ | ⟨_,_,some_⟩
    · rw [none_]
      exact .inl rfl
    · exact .inr (wordsOne (by rw [some_]; simp) plain)
  cases rest : text.dropWhile (fun c => !isSpace c) with
  | nil =>
    rw [rest,List.append_nil] at split
    exact ⟨word,[],by rw [← split]; exact one,by rw [← split]; exact self⟩
  | cons d more =>
    have blank : isSpace d = true := by
      have stops := List.head?_dropWhile_not (fun c => !isSpace c) text
      rw [rest] at stops
      simpa using stops
    rw [rest] at split
    refine ⟨word,words more,?_,?_⟩
    · rw [← split,← List.cons_append,wordsAppend _ _ blank]
      change words (c :: word) ++ words more = _
      rw [one]
      rfl
    · rw [← split,wordsAppend _ _ blank]
      change words word ++ _ = _ ∨ words word ++ _ = _
      exact self.imp (fun same => by rw [same]; rfl) (fun same => by rw [same]; rfl)

theorem wordsBlank {c : Char} (text : Text) (blank : isSpace c = true) : words (c :: text) = words text :=
  wordsAppend [] text blank

theorem wordsSome {text : Text} {c : Char} (inside : c ∈ text) (dark : isSpace c = false) :
    words text ≠ [] := by
  induction text with
  | nil => cases inside
  | cons d rest ih =>
    cases blank : isSpace d with
    | true =>
      rw [wordsBlank rest blank]
      refine ih (List.mem_of_ne_of_mem (fun same => ?_) inside)
      rw [same,blank] at dark
      cases dark
    | false =>
      obtain ⟨word,more,same,_⟩ := wordsCons d rest blank
      rw [same]
      exact List.cons_ne_nil _ _

theorem wordsMore (front text : Text) : (words text).length ≤ (words (front ++ text)).length := by
  induction front with
  | nil => exact Nat.le_refl _
  | cons c front ih =>
    refine ih.trans ?_
    rw [List.cons_append]
    cases blank : isSpace c with
    | true => rw [wordsBlank _ blank]
    | false =>
      obtain ⟨word,rest,same,same' | same'⟩ := wordsCons c (front ++ text) blank
      · rw [same,same',List.length_cons]
        exact Nat.le_succ _
      · rw [same,same',List.length_cons,List.length_cons]

theorem plainOf {text : Text} {c d : Char} (one : (words text).length = 1)
    (first : text.head? = some c) (firstDark : isSpace c = false) (last : text.getLast? = some d)
    (lastDark : isSpace d = false) : ∀ b ∈ text, isSpace b = false := by
  intro b inside
  by_contra blank
  rw [Bool.not_eq_false] at blank
  obtain ⟨front,back,rfl⟩ := List.append_of_mem inside
  rw [wordsAppend _ _ blank,List.length_append] at one
  have before_ : words front ≠ [] := by
    cases front with
    | nil =>
      cases first
      rw [blank] at firstDark
      cases firstDark
    | cons e front =>
      cases first
      exact wordsSome List.mem_cons_self firstDark
  have after : words back ≠ [] := by
    rw [List.getLast?_append_cons] at last
    cases back with
    | nil =>
      rw [List.getLast?_singleton] at last
      cases last
      rw [blank] at lastDark
      cases lastDark
    | cons e back =>
      rw [List.getLast?_cons_cons] at last
      exact wordsSome (List.mem_of_getLast? last) lastDark
  have left := List.length_pos_iff.mpr before_
  have right := List.length_pos_iff.mpr after
  omega

theorem objectWords (obj : Text) : 2 ≤ (words (sourceText (.object obj))).length := by
  have shape : sourceText (.object obj) = "(in".toList ++ ' ' :: (obj ++ [')']) := by
    simp [sourceText]
  have in_ : words "(in".toList ≠ [] := wordsSome (c := '(') (by decide) rfl
  have obj_ : words (obj ++ [')']) ≠ [] :=
    wordsSome (List.mem_append_right _ List.mem_cons_self) (c := ')') rfl
  rw [shape,wordsAppend _ _ (show isSpace ' ' = true from rfl),List.length_append]
  have left := List.length_pos_iff.mpr in_
  have right := List.length_pos_iff.mpr obj_
  omega

theorem fileNoColon {line fn address file : Text} {lineno : Nat} {p : Place}
    (three : words (locInfo line) = [address,fn,sourceText (.srcloc file lineno)])
    (placed : place line = .ok p) : ':' ∉ file := by
  intro inside
  obtain ⟨front,back,rfl⟩ := List.append_of_mem inside
  have bare : (((sourceText (.srcloc (front ++ ':' :: back) lineno)).drop 1).dropLast).splitOn ':' =
      front.splitOn ':' ++ (back.splitOn ':' ++ (decimal lineno).splitOn ':') := by
    rw [sourceText,List.cons_append,List.drop_succ_cons,List.drop_zero,List.dropLast_concat,
      List.append_assoc,List.cons_append,List.splitOn_append_cons_self,
      List.splitOn_append_cons_self]
  have long : (front.splitOn ':' ++ (back.splitOn ':' ++ (decimal lineno).splitOn ':')).length ≠ 2 := by
    have a := List.length_pos_iff.mpr (List.splitOn_ne_nil ':' front)
    have b := List.length_pos_iff.mpr (List.splitOn_ne_nil ':' back)
    have c := List.length_pos_iff.mpr (List.splitOn_ne_nil ':' (decimal lineno))
    rw [List.length_append,List.length_append]
    omega
  simp only [place,three,bare] at placed
  split at placed
  · next same => exact absurd (congrArg List.length same) long
  · cases placed

theorem locatedOf {e : Event} {p : Place} {c d : Char} (noBar : '|' ∉ describeIP e.ip)
    (first : (fnText e.ip).head? = some c) (firstDark : isSpace c = false)
    (last : (fnText e.ip).getLast? = some d) (lastDark : isSpace d = false)
    (noColon : e.ip.source = .unknown → ∀ word ∈ words (fnText e.ip), ':' ∉ word)
    (placed : place e.line = .ok p) : ∃ fn file lineno, Located e.ip fn file lineno := by
  rw [lineParts] at placed
  have two : (words (fnText e.ip)).length + (words (sourceText e.ip.source)).length = 2 := by
    by_contra other
    cases (noPlace noBar other _).symm.trans placed
  have three := locationWords noBar (' ' :: (printInsnType e.value e.stmt ++
    inBraces (infoFlow e.stmt).1 ++ (infoFlow e.stmt).2 ++ ['\n']))
  have some_ := List.length_pos_iff.mpr (wordsSome (List.mem_of_mem_head? first) firstDark)
  cases source : e.ip.source with
  | unknown =>
    rw [source] at two three
    obtain ⟨v,w,pair⟩ : ∃ v w, words (fnText e.ip) = [v,w] := List.length_eq_two.mp two
    have plain := noColon source w (by rw [pair]; exact List.mem_cons_of_mem _ List.mem_cons_self)
    have inner : ':' ∉ (w.drop 1).dropLast := fun inside =>
      plain (List.mem_of_mem_drop (List.mem_of_mem_dropLast inside))
    rw [pair] at three
    simp only [place,three,List.cons_append,List.nil_append,sourceText,
      show words [] = [] from rfl,List.splitOn_eq_singleton inner] at placed
    cases placed
  | object obj =>
    rw [source] at two
    have more := objectWords obj
    omega
  | srcloc file lineno =>
    rw [source] at two three
    have head : (sourceText (.srcloc file lineno)).head? = some '(' := rfl
    have foot : (sourceText (.srcloc file lineno)).getLast? = some ')' := by
      rw [sourceText,List.getLast?_concat]
    have source_ := List.length_pos_iff.mpr
      (wordsSome (c := '(') (List.mem_of_mem_head? head) rfl)
    have fnPlain := plainOf (by omega) first firstDark last lastDark
    have sourcePlain := plainOf (by omega) head rfl foot rfl
    have parts := describeParts (l := e.ip) (by rw [source]; simp)
    rw [parts,source] at noBar
    have fnWord : Word (fnText e.ip) := by
      refine ⟨fun none_ => ?_,fun b inside => ⟨fnPlain b inside,?_⟩⟩
      · rw [none_] at first
        cases first
      rintro rfl
      exact noBar (List.mem_append_right _ (List.mem_cons_of_mem _ (List.mem_append_left _ inside)))
    have fileIn {b : Char} (inside : b ∈ file) : b ∈ sourceText (.srcloc file lineno) :=
      List.mem_append_left _ (List.mem_cons_of_mem _ (List.mem_append_left _ inside))
    refine ⟨fnText e.ip,file,lineno,rfl,source,fnWord,fun b inside =>
      ⟨sourcePlain b (fileIn inside),?_,?_⟩⟩
    · rintro rfl
      exact noBar (List.mem_append_right _ (List.mem_cons_of_mem _ (List.mem_append_right _
        (List.mem_cons_of_mem _ (fileIn inside)))))
    · rintro rfl
      rw [wordWords fnWord,wordsOne (by simp [sourceText]) sourcePlain] at three
      exact fileNoColon three placed inside

theorem saidPlace {srcDict : SrcDict} {line : Text} {found : Option (Text × Text)}
    (begins : Begins line) (here : said srcDict line = .ok found) : ∃ p, place line = .ok p := by
  unfold Begins at begins
  rw [said,if_pos begins] at here
  cases placed : place line with
  | ok p => exact ⟨p,rfl⟩
  | error e =>
    rw [placed] at here
    cases here

theorem placeThreeWords {line : Text} {p : Place} (placed : place line = .ok p) :
    (words (locInfo line)).length = 3 := by
  by_contra other
  cases (placeWords other).symm.trans placed

theorem cutInside {log : List Entry} (usual : Usual log) {e : Event} {c : Cut}
    (member : .record e (some c) ∈ log) (front : c.before <+: describeIP e.ip ++ [' '])
    (placed : Begins (c.before ++ c.warning ++ ['\n']) → ∃ p, place (c.before ++ c.warning ++ ['\n']) = .ok p) :
    c.before = [] ∨ c.before = ['0'] := by
  have two : "0x".toList = ['0','x'] := by decide
  have zero : ['0','x'] <+: describeIP e.ip ++ [' '] := by
    simp only [describeIP,two,List.append_assoc]
    exact List.prefix_append _ _
  have noBar : '|' ∉ c.before := fun at_ => by
    rcases List.mem_append.mp (front.mem at_) with here | here
    · exact usual.noBar e (some c) member here
    · exact absurd (List.mem_singleton.mp here) (by decide)
  rcases Nat.lt_or_ge c.before.length 2 with short | long
  · have start := List.prefix_of_prefix_length_le front zero short.le
    rw [show ['0','x'] = ['0'] ++ ['x'] from rfl,List.prefix_concat_iff] at start
    rcases start with same | start
    · rw [same] at short
      exact absurd short (by decide)
    · rw [show ['0'] = [] ++ ['0'] from rfl,List.prefix_concat_iff] at start
      exact start.symm.imp List.prefix_nil.mp id
  · -- the line still begins with 0x, and the warning adds words to it
    exfalso
    have start := List.prefix_of_prefix_length_le zero front long
    obtain ⟨p,found⟩ := placed (List.isPrefixOf_iff_prefix.mpr (by
      rw [two,List.append_assoc]
      exact start.trans (List.prefix_append _ _)))
    have three := placeThreeWords found
    have kept : locInfo (c.before ++ c.warning ++ ['\n']) = c.before ++ locInfo (c.warning ++ ['\n']) := by
      rw [List.append_assoc]
      exact List.takeWhile_append_of_pos fun d at_ => decide_eq_true fun same => noBar (same ▸ at_)
    rw [kept] at three
    have four := (usual.long e c member).trans (wordsMore c.before _)
    omega

theorem cutsOf {log : List Entry} (usual : Usual log) {e : Event} {c : Cut}
    (member : .record e (some c) ∈ log) (wellFormed : WellFormed (.record e (some c)))
    (placed : ∀ line ∈ (Entry.record e (some c)).lines, Begins line → ∃ p, place line = .ok p) :
    c.before = [] ∨ c.before = ['0'] ∨ c.Beyond e ∧ ¬ "0x".toList <+: c.after := by
  obtain ⟨_,_,inside,_⟩ := wellFormed
  have bar : " |".toList = [' ','|'] := by decide
  have whole : describeIP e.ip ++ " |".toList <+: describeIP e.ip ++ " | ".toList ++
      printInsnType e.value e.stmt :=
    ⟨' ' :: printInsnType e.value e.stmt,by simp⟩
  rcases Nat.lt_or_ge c.before.length (describeIP e.ip ++ " |".toList).length with short | long
  · have early := List.prefix_of_prefix_length_le inside whole short.le
    rw [bar,show describeIP e.ip ++ [' ','|'] = describeIP e.ip ++ [' '] ++ ['|'] by simp,
      List.prefix_concat_iff] at early
    have front := early.resolve_left fun same => by
      rw [same,bar] at short
      simp at short
    exact (cutInside usual member front (placed _ (cutLines.mpr (.inl rfl)))).imp id .inl
  · have beyond : c.Beyond e := List.prefix_of_prefix_length_le whole inside long
    refine .inr (.inr ⟨beyond,fun rest => ?_⟩)
    have some_ : c.before ≠ [] := List.ne_nil_of_length_pos (Nat.zero_lt_of_lt (beyondLong beyond))
    obtain ⟨p,found⟩ := placed (c.after ++ ['\n']) (cutLines.mpr (.inr (.inr rfl)))
      (List.isPrefixOf_iff_prefix.mpr (rest.trans (List.prefix_append _ _)))
    exact usual.rest e c member some_ rest (placeThreeWords found)

theorem extractsLegible {srcDict : SrcDict} {log : List Entry} (wellFormed : ∀ entry ∈ log, WellFormed entry)
    (usual : Usual log) (extracts : Extracts srcDict log) : Legible log := by
  have reads := (mainReads srcDict (logText log)).1
  have plainReads := (mainReads srcDict (logText (plain log))).1
  rw [logTextLines wellFormed] at reads
  rw [logTextLines (plainWellFormed wellFormed)] at plainReads
  obtain ⟨last,plainLast,ran,plainRan,_⟩ := extracts.same
  refine ⟨fun e cut member => ?_,fun e c member => ?_⟩
  · obtain ⟨found,here⟩ := plainReads.mp ⟨plainLast,plainRan⟩ e.line
      (memPlainLines.mpr ⟨e,cut,member,rfl⟩)
    have begins : Begins e.line := by
      rw [lineParts]
      exact beginsHex _ _
    obtain ⟨p,placed⟩ := saidPlace begins here
    obtain ⟨c,d,first,firstDark,last,lastDark⟩ := usual.dark e cut member
    exact locatedOf (usual.noBar e cut member) first firstDark last lastDark
      (usual.noColon e cut member) placed
  · refine cutsOf usual member (wellFormed _ member) fun line inside begins => ?_
    obtain ⟨found,here⟩ := reads.mp ⟨last,ran⟩ line (List.mem_flatMap.mpr ⟨_,member,inside⟩)
    exact saidPlace begins here

theorem extractsCovered {srcDict : SrcDict} {log : List Entry} (wellFormed : ∀ entry ∈ log, WellFormed entry)
    (parsable : Parsable srcDict log) (legible : Legible log) (extracts : Extracts srcDict log) :
    Covered srcDict log := by
  have reads := (mainReads srcDict (logText log)).2
  have plainReads := (mainReads srcDict (logText (plain log))).2
  rw [logTextLines wellFormed] at reads
  rw [logTextLines (plainWellFormed wellFormed)] at plainReads
  obtain ⟨last,plainLast,ran,plainRan,same⟩ := extracts.same
  have both (p : Text × Text) : (∃ entry ∈ log, Shows srcDict entry p) ↔
      ∃ e cut, .record e cut ∈ log ∧ Names srcDict e e.line p := by
    rw [← logSaid parsable legible wellFormed,← plainSaid parsable legible,← reads last ran p,
      ← plainReads plainLast plainRan p]
    exact same p
  exact fun e c member => ⟨fun p names => (both p).mpr ⟨e,some c,member,names⟩,
    fun p shows => (both p).mp ⟨_,member,shows⟩⟩

/- For every log of records that Valgrind may cut by warnings, and every source directory
whose lines can be parsed: main gives the pairs of the log without the warnings where the
log is legible and what is cut is covered, and on the usual logs nowhere else. -/
theorem extractsIffLegible (srcDict : SrcDict) (log : List Entry)
    (wellFormed : ∀ entry ∈ log, WellFormed entry) (parsable : Parsable srcDict log) :
    (Legible log → Covered srcDict log → Extracts srcDict log) ∧
      (Usual log → (Extracts srcDict log ↔ Legible log ∧ Covered srcDict log)) := by
  refine ⟨legibleExtracts wellFormed parsable,fun usual => ⟨fun extracts => ?_,fun both =>
    legibleExtracts wellFormed parsable both.1 both.2⟩⟩
  have legible := extractsLegible wellFormed usual extracts
  exact ⟨legible,extractsCovered wellFormed parsable legible extracts⟩

/- A store to x in the first line of foo.c, and the same record cut before its braces. -/
def storeX : Event :=
  ⟨⟨0x4005D3,some "main".toList,.srcloc "foo.c".toList 1⟩,5,
    .store "mov dword ptr [rbp - 4], eax".toList "x".toList "x:1ffefff <- t5_1".toList⟩

def cutX : Cut where
  before := describeIP storeX.ip ++ " | ".toList ++ printInsnType 5 storeX.stmt
  warning := "--7-- warning: evaluate_Dwarf3_Expr: unhandled DW_OP_ 0xf3".toList
  more := []
  after := "{x}x:1ffefff <- t5_1".toList

def fooDict (source : String) : SrcDict := fun f =>
  if f = "foo.c".toList then some source.toList else none

def cutLog : List Entry := [.warning "==7== Command: ./a.out".toList,.record storeX (some cutX)]

theorem cutWellFormed : ∀ entry ∈ cutLog, WellFormed entry := by
  simp only [cutLog,List.forall_mem_cons,List.not_mem_nil,false_implies,implies_true,and_true,
    WellFormed,Warning,Cut.Of]
  decide +kernel

theorem storeLocated : Located storeX.ip "main".toList "foo.c".toList 1 where
  function := rfl
  source := rfl
  word := ⟨by decide,by simp [isSpace]⟩
  fileWord := by simp [isSpace]

theorem namesX {line : Text} {p : Text × Text} :
    Names (fooDict "x = 1;\n") storeX line p ↔ p.1 = "main".toList ∧
      (Braced line p.2 ∨ (∀ v, ¬ Braced line v) ∧ p.2 = "x".toList) := by
  have assigns : checkSrcVar "x = 1;\n".toList 1 = .ok (some "x".toList) := by decide +kernel
  have found : fooDict "x = 1;\n" "foo.c".toList = some "x = 1;\n".toList := rfl
  constructor
  · rintro ⟨file,lineno,source,located,inside,variable_⟩
    cases located.source
    cases found.symm.trans inside
    exact ⟨located.function.symm,variable_.imp id (And.imp id fun checked =>
      Option.some.inj (Except.ok.inj (checked.symm.trans assigns)))⟩
  · rintro ⟨function,variable_⟩
    refine ⟨_,1,_,function ▸ storeLocated,found,variable_.imp id (And.imp id fun same => ?_)⟩
    rw [same]
    exact assigns

/- The source line of the cut record assigns the variable of its braces. -/
theorem extractsCut : Extracts (fooDict "x = 1;\n") cutLog ∧ Usual cutLog := by
  have assigns : checkSrcVar "x = 1;\n".toList 1 = .ok (some "x".toList) := by decide +kernel
  have beyond : cutX.Beyond storeX := ⟨' ' :: printInsnType 5 storeX.stmt,by decide +kernel⟩
  have head (v : Text) : ¬ Braced (cutX.before ++ cutX.warning ++ ['\n']) v := fun braced => by
    have none_ : varInfo (cutX.before ++ cutX.warning ++ ['\n']) = none := by decide +kernel
    cases none_.symm.trans (varInfoIff.mpr braced)
  have whole : varInfo storeX.line = some "x".toList := by decide +kernel
  have records {p : Event → Option Cut → Prop} (here : p storeX (some cutX)) :
      ∀ e cut, .record e cut ∈ cutLog → p e cut := by
    intro e cut member
    simp only [cutLog,List.mem_cons,List.not_mem_nil,or_false] at member
    rcases member with member | member <;> cases member
    exact here
  have cuts {p : Event → Cut → Prop} (here : p storeX cutX) :
      ∀ e c, .record e (some c) ∈ cutLog → p e c := by
    intro e c member
    simp only [cutLog,List.mem_cons,List.not_mem_nil,or_false] at member
    rcases member with member | member <;> cases member
    exact here
  have parsable : Parsable (fooDict "x = 1;\n") cutLog := by
    refine records fun file lineno source at_ inside => ?_
    cases at_
    cases (show fooDict "x = 1;\n" "foo.c".toList = some "x = 1;\n".toList from rfl).symm.trans inside
    exact ⟨_,assigns⟩
  have legible : Legible cutLog :=
    ⟨records ⟨_,_,_,storeLocated⟩,cuts (.inr (.inr ⟨beyond,by decide⟩))⟩
  have shown : Shows (fooDict "x = 1;\n") (.record storeX (some cutX)) ("main".toList,"x".toList) :=
    .inr ⟨beyond,namesX.mpr ⟨rfl,.inr ⟨head,rfl⟩⟩⟩
  have covered : Covered (fooDict "x = 1;\n") cutLog := by
    refine cuts ⟨fun p names => ⟨.record storeX (some cutX),.tail _ (.head _),?_⟩,
      fun p shows => ⟨storeX,some cutX,.tail _ (.head _),?_⟩⟩
    · obtain ⟨function,braced | ⟨none_,_⟩⟩ := namesX.mp names
      · have same : "x".toList = p.2 := Option.some.inj (whole.symm.trans (varInfoIff.mpr braced))
        rw [show p = ("main".toList,"x".toList) from Prod.ext function same.symm]
        exact shown
      · exact absurd (varInfoIff.mp whole) (none_ _)
    · rcases shows with ⟨start,_⟩ | ⟨_,names⟩
      · exact absurd start (by decide)
      · obtain ⟨function,braced | ⟨_,same⟩⟩ := namesX.mp names
        · exact absurd braced (head _)
        · exact namesX.mpr ⟨function,.inl (same ▸ varInfoIff.mp whole)⟩
  refine ⟨(extractsIffLegible _ cutLog cutWellFormed parsable).1 legible covered,
    records (by decide +kernel),records ⟨'m','n',rfl,rfl,rfl,rfl⟩,records nofun,
    cuts (by decide +kernel),cuts (fun _ => by decide +kernel)⟩

/- A function in an object, and a record whose source line assigns another variable than
the one that is cut off. -/
def objectLog : List Entry :=
  [.record ⟨⟨0x4C2FB6,some "malloc".toList,.object "/usr/lib/libc.so.6".toList⟩,5,
    .other none "t5_1 <- r2_7".toList⟩ none]

theorem objectAndCutFail : ¬ Extracts (fooDict "x = 1;\n") objectLog ∧
    ¬ Extracts (fooDict "y += x;\n") cutLog := by
  constructor
  · rintro ⟨⟨last,_,ran,_⟩,_⟩
    obtain ⟨found,here⟩ := (mainReads _ _).1.mp ⟨last,ran⟩ _
      (show "0x4C2FB6: malloc (in /usr/lib/libc.so.6) | t5_1 <- r2_7\n".toList ∈ _ by decide +kernel)
    have raises : said (fooDict "x = 1;\n")
        "0x4C2FB6: malloc (in /usr/lib/libc.so.6) | t5_1 <- r2_7\n".toList =
        .error .valueError := by decide +kernel
    cases raises.symm.trans here
  · rintro ⟨⟨last,plainLast,ran,plainRan,same⟩,_⟩
    have whole := ((mainReads _ _).2 plainLast plainRan ("main".toList,"x".toList)).mpr
      (by decide +kernel)
    have cut := ((mainReads _ _).2 last ran ("main".toList,"x".toList)).mp ((same _).mpr whole)
    revert cut
    decide +kernel

end Autonomizer.TaintLog
