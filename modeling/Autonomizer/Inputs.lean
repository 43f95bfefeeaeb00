import Mathlib
import Autonomizer.Data

/-! PIContext::parseInput: the argument vectors of a training file and of a validation file,
read through a buffer of 256 bytes. -/
namespace Autonomizer.Inputs
open Data Format

def nul : Char := Char.ofNat 0

/- What the library sees of a buffer. -/
def cString (buf : Text) : Text := buf.takeWhile (· ≠ nul)

def isDelim (c : Char) : Bool := c = ' ' || c = '\n'

/- strtok(s," \n"): a token, and where the next call goes on. -/
def strtok (s : Text) : Option (Text × Text) :=
  match s.dropWhile isDelim with
  | [] => none
  | c :: rest => some ((c :: rest).takeWhile (fun d => !isDelim d),
      ((c :: rest).dropWhile (fun d => !isDelim d)).drop 1)

theorem strtokShorter {s token rest : Text} (found : strtok s = some (token,rest)) :
    rest.length < s.length := by
  unfold strtok at found
  split at found <;> try contradiction
  next c tail start =>
  cases found
  have first : isDelim c = false := by
    have head := List.head?_dropWhile_not isDelim s
    rw [start] at head
    exact head
  have whole : (c :: tail).length ≤ s.length :=
    start ▸ (List.dropWhile_suffix isDelim).length_le
  have later : ((c :: tail).dropWhile (fun d => !isDelim d)).length ≤ tail.length := by
    rw [List.dropWhile_cons_of_pos (by rw [first]; rfl)]
    exact (List.dropWhile_suffix _).length_le
  rw [List.length_drop]
  rw [List.length_cons] at whole
  omega

def argsOf (s : Text) : List Text :=
  match _found : strtok s with
  | none => []
  | some (ptr,rest) => ptr :: argsOf rest
termination_by s.length
decreasing_by exact strtokShorter _found

/- while (fgets(buf,256,file)). -/
def readArgs (file : Text) : List (List Text) :=
  (fgetsAll 254 file).map (fun buf => argsOf (cString buf))

structure ArgVectors where
  trainArgs : List (List Text)
  validArgs : List (List Text)

def parseInput (trainFile validFile : Option Text) : Except Stop ArgVectors :=
  match trainFile with
  | none => .error (.assertion "trainFile")
  | some text =>
    if readArgs text = [] then
      .error (.assertion "Training file is necessary for supervised learning")
    else match validFile with
      | none => .ok ⟨readArgs text,[]⟩
      | some valid => .ok ⟨readArgs text,readArgs valid⟩

def pieces (line : Text) : List Text :=
  ((line.takeWhile (· ≠ '\n')).splitOn ' ').filter (· ≠ [])

def entries (text : Text) : List (List Text) := (lines text).map pieces

/- The vectors are those of the lines; only a training file without lines aborts. -/
def Parsed (train : Text) (valid : Option Text) : Prop :=
  match parseInput (some train) valid with
  | .ok inputs => inputs.trainArgs = entries train ∧ inputs.validArgs = entries (valid.getD [])
  | .error _ => lines train = []

/- Every line, with its newline, has room in the buffer beside the final NUL. -/
def Short (text : Text) : Prop := ∀ line ∈ lines text, line.length ≤ 255

def LineOf (line rest : Text) : Prop :=
  (∃ content, '\n' ∉ content ∧ line = content ++ ['\n']) ∨ ('\n' ∉ line ∧ rest = [])

section
variable {n : Nat} {line rest text : Text}

theorem lineTail {c : Char} (first : LineOf (c :: line) rest) (other : c ≠ '\n') :
    LineOf line rest := by
  rcases first with ⟨content,whole,same⟩ | ⟨whole,last⟩
  · cases content with
    | nil => exact absurd (List.cons.inj same).1 other
    | cons d content =>
      obtain ⟨rfl,rfl⟩ := List.cons.inj same
      exact .inl ⟨content,fun inside => whole (List.mem_cons_of_mem _ inside),rfl⟩
  · exact .inr ⟨fun inside => whole (List.mem_cons_of_mem _ inside),last⟩

theorem lineEnds {c : Char} (first : LineOf (c :: line) rest) (newline : c = '\n') : line = [] := by
  rcases first with ⟨content,whole,same⟩ | ⟨whole,last⟩
  · cases content with
    | nil => exact (List.cons.inj same).2
    | cons d content =>
      exact absurd ((List.cons.inj same).1 ▸ newline ▸ List.mem_cons_self) whole
  · exact absurd (newline ▸ List.mem_cons_self) whole

theorem lineDrop (first : LineOf line rest) (n : Nat) (inside : n < line.length) :
    LineOf (line.drop n) rest := by
  rcases first with ⟨content,whole,rfl⟩ | ⟨whole,last⟩
  · rw [List.length_append,List.length_singleton] at inside
    refine .inl ⟨content.drop n,fun member => whole (List.mem_of_mem_drop member),?_⟩
    exact List.drop_append_of_le_length (Nat.le_of_lt_succ inside)
  · exact .inr ⟨fun member => whole (List.mem_of_mem_drop member),last⟩

theorem fgetsFirst (first : LineOf line rest) (n : Nat) :
    fgets n (line ++ rest) = (line.take n,line.drop n ++ rest) := by
  induction line generalizing n with
  | nil =>
    rcases first with ⟨content,_,same⟩ | ⟨_,rfl⟩
    · exact absurd same.symm (List.append_ne_nil_of_right_ne_nil _ (List.cons_ne_nil _ _))
    · cases n <;> rfl
  | cons c tail ih =>
    cases n with
    | zero => rfl
    | succ n =>
      by_cases newline : c = '\n'
      · cases lineEnds first newline
        simp only [List.singleton_append,fgets,if_pos newline,List.take_succ_cons,List.take_nil,
          List.drop_succ_cons,List.drop_nil,List.nil_append]
      · simp only [List.cons_append,fgets,if_neg newline,ih (lineTail first newline),
          List.take_succ_cons,List.drop_succ_cons]

theorem linesLast (whole : '\n' ∉ line) (some_ : line ≠ []) : lines line = [line] := by
  induction line with
  | nil => exact absurd rfl some_
  | cons c tail ih =>
    have other : c ≠ '\n' := fun same => whole (same ▸ List.mem_cons_self)
    have later : '\n' ∉ tail := fun inside => whole (List.mem_cons_of_mem c inside)
    simp only [lines,if_neg other]
    cases tail with
    | nil => rfl
    | cons d tail => rw [ih later (List.cons_ne_nil d tail)]

theorem linesFirst (first : LineOf line rest) (some_ : line ≠ []) :
    lines (line ++ rest) = line :: lines rest := by
  rcases first with ⟨content,whole,rfl⟩ | ⟨whole,rfl⟩
  · rw [List.append_assoc]
    exact linesCons whole rest
  · rw [List.append_nil]
    exact linesLast whole some_

theorem firstLine (some_ : text ≠ []) :
    ∃ line rest, text = line ++ rest ∧ line ≠ [] ∧ LineOf line rest := by
  induction text with
  | nil => exact absurd rfl some_
  | cons c tail ih =>
    by_cases newline : c = '\n'
    · exact ⟨[c],tail,rfl,List.cons_ne_nil _ _,.inl ⟨[],nofun,newline ▸ rfl⟩⟩
    · by_cases last : tail = []
      · cases last
        exact ⟨[c],[],rfl,List.cons_ne_nil _ _,
          .inr ⟨fun inside => newline (List.mem_singleton.mp inside).symm,rfl⟩⟩
      · obtain ⟨line,rest,rfl,_,first⟩ := ih last
        refine ⟨c :: line,rest,rfl,List.cons_ne_nil _ _,?_⟩
        rcases first with ⟨content,whole,rfl⟩ | ⟨whole,rfl⟩
        · refine .inl ⟨c :: content,fun inside => ?_,rfl⟩
          rcases List.mem_cons.mp inside with same | inside
          · exact newline same.symm
          · exact whole inside
        · refine .inr ⟨fun inside => ?_,rfl⟩
          rcases List.mem_cons.mp inside with same | inside
          · exact newline same.symm
          · exact whole inside

theorem fgetsAllFirst (first : LineOf line rest) (some_ : line ≠ []) (n : Nat) :
    fgetsAll n (line ++ rest) =
      line.take (n + 1) :: fgetsAll n (line.drop (n + 1) ++ rest) := by
  have cut := fgetsFirst first (n + 1)
  obtain ⟨c,tail,rfl⟩ := List.exists_cons_of_ne_nil some_
  rw [List.cons_append] at cut ⊢
  rw [fgetsAll,cut]

theorem chunksOfLine (first : LineOf line rest) (some_ : line ≠ []) (n : Nat) :
    (line.length ≤ n + 1 → fgetsAll n (line ++ rest) = line :: fgetsAll n rest) ∧
    (n + 1 < line.length → lines (line.drop (n + 1) ++ rest) = line.drop (n + 1) :: lines rest) := by
  refine ⟨fun fits => ?_,fun long => ?_⟩
  · rw [fgetsAllFirst first some_,List.take_of_length_le fits,List.drop_eq_nil_of_le fits,
      List.nil_append]
  · refine linesFirst (lineDrop first (n + 1) long) (fun none_ => ?_)
    rw [List.drop_eq_nil_iff] at none_
    omega

theorem chunksFit (text : Text) (fits : ∀ line ∈ lines text, line.length ≤ n + 1) :
    fgetsAll n text = lines text := by
  by_cases none_ : text = []
  · rw [none_,fgetsAll]
    rfl
  · obtain ⟨line,rest,rfl,some_,first⟩ := firstLine none_
    have shorter : rest.length < (line ++ rest).length := by
      rw [List.length_append]
      have := List.length_pos_iff.mpr some_
      omega
    rw [linesFirst first some_] at fits ⊢
    rw [(chunksOfLine first some_ n).1 (fits line List.mem_cons_self),
      chunksFit rest (fun other inside => fits other (List.mem_cons_of_mem line inside))]
termination_by text.length

theorem chunksCount (n : Nat) (text : Text) : (lines text).length ≤ (fgetsAll n text).length ∧
    ((fgetsAll n text).length = (lines text).length → ∀ line ∈ lines text, line.length ≤ n + 1) := by
  by_cases none_ : text = []
  · rw [none_]
    exact ⟨Nat.zero_le _,fun _ => nofun⟩
  · obtain ⟨line,rest,same,some_,first⟩ := firstLine none_
    have positive := List.length_pos_iff.mpr some_
    have shorter : rest.length < text.length := by
      rw [same,List.length_append]
      omega
    rw [same,linesFirst first some_]
    by_cases fits : line.length ≤ n + 1
    · obtain ⟨least,only⟩ := chunksCount n rest
      rw [(chunksOfLine first some_ n).1 fits]
      refine ⟨Nat.succ_le_succ least,fun same other inside => ?_⟩
      rcases List.mem_cons.mp inside with rfl | inside
      · exact fits
      · exact only (Nat.succ.inj same) other inside
    · have later : (line.drop (n + 1) ++ rest).length < text.length := by
        rw [same,List.length_append,List.length_append,List.length_drop]
        omega
      obtain ⟨least,_⟩ := chunksCount n (line.drop (n + 1) ++ rest)
      rw [(chunksOfLine first some_ n).2 (Nat.lt_of_not_le fits)] at least
      rw [fgetsAllFirst first some_]
      simp only [List.length_cons] at least ⊢
      exact ⟨by omega,fun same => by omega⟩
termination_by text.length
decreasing_by
  · exact shorter
  · exact later

end

def between (s : Text) : List Text := (s.splitOnP isDelim).filter (· ≠ [])

theorem betweenAppend (first rest : Text) {c : Char} (delim : isDelim c = true) :
    between (first ++ c :: rest) = between first ++ between rest := by
  unfold between
  rw [List.splitOnP_append_cons _ _ delim,List.filter_append]

theorem betweenOne {token : Text} (some_ : token ≠ []) (plain : ∀ c ∈ token, isDelim c = false) :
    between token = [token] := by
  rw [between,List.splitOnP_eq_singleton plain]
  simp [some_]

theorem betweenBlanks (s : Text) : between s = between (s.dropWhile isDelim) := by
  induction s with
  | nil => rfl
  | cons c rest ih =>
    cases delim : isDelim c with
    | true =>
      rw [List.dropWhile_cons_of_pos delim,← ih]
      exact betweenAppend [] rest delim
    | false => rw [List.dropWhile_cons_of_neg (Bool.eq_false_iff.mp delim)]

theorem argsOfBetween (s : Text) : argsOf s = between s := by
  rw [argsOf,betweenBlanks]
  split
  · next found =>
    unfold strtok at found
    split at found <;> try contradiction
    next none_ =>
    rw [none_]
    rfl
  · next token rest found =>
    have shorter := strtokShorter found
    rw [argsOfBetween rest]
    unfold strtok at found
    split at found <;> try contradiction
    next c tail start =>
    cases found
    have plain : ∀ d ∈ (c :: tail).takeWhile (fun d => !isDelim d), isDelim d = false :=
      fun d inside => by simpa using List.mem_takeWhile_imp inside
    have first : isDelim c = false := by
      have head := List.head?_dropWhile_not isDelim s
      rw [start] at head
      exact head
    have some_ : (c :: tail).takeWhile (fun d => !isDelim d) ≠ [] := by
      rw [List.takeWhile_cons_of_pos (by rw [first]; rfl)]
      exact List.cons_ne_nil _ _
    rw [start]
    conv_rhs => rw [← List.takeWhile_append_dropWhile (p := fun d => !isDelim d) (l := c :: tail)]
    cases after : (c :: tail).dropWhile (fun d => !isDelim d) with
    | nil =>
      rw [List.append_nil,betweenOne some_ plain]
      rfl
    | cons d more =>
      have delim : isDelim d = true := by
        have head := List.head?_dropWhile_not (fun d => !isDelim d) (c :: tail)
        rw [after] at head
        simpa using head
      rw [betweenAppend _ _ delim,betweenOne some_ plain]
      rfl
termination_by s.length

theorem splitSame {p q : Char → Bool} {s : Text} (same : ∀ c ∈ s, p c = q c) :
    s.splitOnP p = s.splitOnP q := by
  induction s with
  | nil => rw [List.splitOnP_nil,List.splitOnP_nil]
  | cons c rest ih =>
    rw [List.splitOnP_cons_eq_if_modifyHead,List.splitOnP_cons_eq_if_modifyHead,
      same c List.mem_cons_self,ih (fun d inside => same d (List.mem_cons_of_mem c inside))]

theorem linesInside (text : Text) : ∀ line ∈ lines text, ∀ c ∈ line, c ∈ text := by
  induction text with
  | nil => exact nofun
  | cons d rest ih =>
    intro line inside c member
    simp only [lines] at inside
    split at inside
    · rcases List.mem_cons.mp inside with rfl | inside
      · exact List.mem_singleton.mp member ▸ List.mem_cons_self
      · exact List.mem_cons_of_mem d (ih line inside c member)
    · split at inside
      · rcases List.mem_singleton.mp inside with rfl
        exact List.mem_singleton.mp member ▸ List.mem_cons_self
      · next first more found =>
        rcases List.mem_cons.mp inside with rfl | inside
        · rcases List.mem_cons.mp member with rfl | member
          · exact List.mem_cons_self
          · exact List.mem_cons_of_mem d (ih first (found ▸ List.mem_cons_self) c member)
        · exact List.mem_cons_of_mem d
            (ih line (found ▸ List.mem_cons_of_mem first inside) c member)

theorem linesShape (text : Text) : ∀ line ∈ lines text, ∃ rest, LineOf line rest := by
  by_cases none_ : text = []
  · rw [none_]
    exact nofun
  · obtain ⟨first,rest,same,some_,shape⟩ := firstLine none_
    have shorter : rest.length < text.length := by
      have := List.length_pos_iff.mpr some_
      rw [same,List.length_append]
      omega
    rw [same,linesFirst shape some_]
    intro line inside
    rcases List.mem_cons.mp inside with rfl | inside
    · exact ⟨rest,shape⟩
    · exact linesShape rest line inside
termination_by text.length

theorem takeAll {d : Char} {s : Text} (none_ : d ∉ s) : s.takeWhile (· ≠ d) = s := by
  refine List.takeWhile_eq_self_iff.mpr (fun c inside => decide_eq_true ?_)
  rintro rfl
  exact none_ inside

theorem argsOfLine {line rest : Text} (shape : LineOf line rest) (clean : nul ∉ line) :
    argsOf (cString line) = pieces line := by
  have whole : cString line = line := takeAll clean
  have plain {content : Text} (one : '\n' ∉ content) :
      content.splitOnP isDelim = content.splitOn ' ' := by
    refine splitSame (fun c inside => ?_)
    have other : c ≠ '\n' := fun same => one (same ▸ inside)
    simp only [isDelim,other,decide_false,Bool.or_false,beq_eq_decide]
  rw [whole,argsOfBetween,between,pieces]
  rcases shape with ⟨content,one,rfl⟩ | ⟨one,-⟩
  · have cut : (content ++ ['\n']).takeWhile (· ≠ '\n') = content := by
      rw [List.takeWhile_append_of_pos (List.takeWhile_eq_self_iff.mp (takeAll one))]
      exact List.append_nil content
    rw [cut,List.splitOnP_append_cons _ _ (by rfl),plain one,List.filter_append,List.splitOnP_nil]
    exact List.append_nil _
  · rw [takeAll one,plain one]

theorem readArgsShort {text : Text} (clean : nul ∉ text) (short : Short text) :
    readArgs text = entries text := by
  rw [readArgs,chunksFit text short,entries]
  refine List.map_congr_left (fun line inside => ?_)
  obtain ⟨rest,shape⟩ := linesShape text line inside
  exact argsOfLine shape (fun member => clean (linesInside text line inside nul member))

theorem readArgsLong {text : Text} (same : readArgs text = entries text) : Short text := by
  have count := congrArg List.length same
  rw [readArgs,entries,List.length_map,List.length_map] at count
  exact (chunksCount 254 text).2 count

theorem readArgsNone {text : Text} (none_ : readArgs text = []) : lines text = [] := by
  have least := (chunksCount 254 text).1
  have count := congrArg List.length none_
  rw [readArgs,List.length_map] at count
  exact List.length_eq_zero_iff.mp (by rw [count] at least; exact Nat.le_zero.mp least)

theorem parsedShort {train : Text} {valid : Option Text} (parsed : Parsed train valid)
    (some_ : lines train ≠ []) : Short train ∧ ∀ text, valid = some text → Short text := by
  unfold Parsed parseInput at parsed
  dsimp only at parsed
  by_cases none_ : readArgs train = []
  · exact absurd (readArgsNone none_) some_
  · rw [if_neg none_] at parsed
    cases valid with
    | none => exact ⟨readArgsLong parsed.1,nofun⟩
    | some text =>
      refine ⟨readArgsLong parsed.1,fun other same => ?_⟩
      cases same
      exact readArgsLong parsed.2

/- Each line has its entry if and only if every line fits. -/
theorem parsedIff (train : Text) (valid : Option Text) (clean : nul ∉ train)
    (cleanValid : ∀ text, valid = some text → nul ∉ text) :
    Parsed train valid ↔ train = [] ∨ (Short train ∧ ∀ text, valid = some text → Short text) := by
  constructor
  · intro parsed
    by_cases none_ : train = []
    · exact .inl none_
    · refine .inr (parsedShort parsed (fun empty => ?_))
      obtain ⟨line,rest,same,first,shape⟩ := firstLine none_
      rw [same,linesFirst shape first] at empty
      cases empty
  · intro short
    unfold Parsed parseInput
    dsimp only
    by_cases none_ : readArgs train = []
    · rw [if_pos none_]
      exact readArgsNone none_
    · rw [if_neg none_]
      have some_ : train ≠ [] := fun empty => none_ (by rw [empty,readArgs,fgetsAll]; rfl)
      obtain ⟨shortTrain,shortValid⟩ := short.resolve_left some_
      cases valid with
      | none => exact ⟨readArgsShort clean shortTrain,rfl⟩
      | some text =>
        exact ⟨readArgsShort clean shortTrain,readArgsShort (cleanValid text rfl) (shortValid text rfl)⟩

/- Two lines with blanks, a blank line, and one without its newline. -/
theorem fourLinesParsed : Parsed "in 1\n\n  in  2 \nin 3".toList none :=
  (parsedIff _ none (by decide) nofun).mpr (.inr ⟨by
    intro line inside
    replace inside : line ∈ ["in 1\n".toList,"\n".toList,"  in  2 \n".toList,"in 3".toList] := inside
    simp only [List.mem_cons,List.not_mem_nil,or_false] at inside
    rcases inside with rfl | rfl | rfl | rfl <;> decide,nofun⟩)

/- A line of 255 characters leaves its newline for an entry of its own. -/
theorem longLineTwice : ¬ Parsed (List.replicate 255 'a' ++ ['\n']) none := by
  have whole : '\n' ∉ List.replicate 255 'a' := fun inside =>
    absurd (List.eq_of_mem_replicate inside) (by decide)
  have one : lines (List.replicate 255 'a' ++ ['\n']) = [List.replicate 255 'a' ++ ['\n']] :=
    linesCons whole []
  intro parsed
  have short := (parsedShort parsed (one ▸ List.cons_ne_nil _ _)).1
  have long := short _ (one ▸ List.mem_cons_self)
  rw [List.length_append,List.length_replicate] at long
  exact absurd long (by decide)

end Autonomizer.Inputs
