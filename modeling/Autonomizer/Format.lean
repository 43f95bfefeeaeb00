import Mathlib

/-! Text as C and Python see it, one character a byte: decimal numbers, lines that
keep their newline, and a line buffer of a fixed size. -/
namespace Autonomizer.Format

abbrev Text := List Char

instance lawfulText : LawfulBEq Text := inferInstance

/- printf %d, %u, %ld and %lu. -/
def decimal (n : Int) : Text :=
  if n < 0 then '-' :: Nat.toDigits 10 n.natAbs else Nat.toDigits 10 n.natAbs

def isSpace (c : Char) : Bool :=
  c = ' ' || c = '\t' || c = '\n' || c = '\x0b' || c = '\x0c' || c = '\r'

def scanNat (neg : Bool) (text : Text) : Option (Int × Text) :=
  match text.takeWhile Char.isDigit with
  | [] => none
  | digits =>
      let n : Int := Nat.ofDigitChars 10 digits 0
      some (if neg then -n else n,text.dropWhile Char.isDigit)

/- strtol in base 10: blanks, a sign, digits; the value and what follows it. -/
def scanInt (text : Text) : Option (Int × Text) :=
  match text.dropWhile isSpace with
  | '-' :: rest => scanNat true rest
  | '+' :: rest => scanNat false rest
  | rest => scanNat false rest

/- std::stoi; none is a thrown exception. -/
def stoi (text : Text) : Option Int :=
  match scanInt text with
  | some (n,_) => if -2^31 ≤ n ∧ n < 2^31 then some n else none
  | none => none

/- Python's int() of a string. -/
def pyInt (text : Text) : Option Int :=
  match scanInt text with
  | some (n,rest) => if rest.all isSpace then some n else none
  | none => none

/- The lines of a file, each with its newline; the last one may lack it. -/
def lines : Text → List Text
  | [] => []
  | c :: rest =>
      if c = '\n' then [c] :: lines rest
      else match lines rest with
        | [] => [[c]]
        | line :: more => (c :: line) :: more

/- fgets with room for n characters: a line, or the first n characters of it. -/
def fgets : Nat → Text → Text × Text
  | 0,text => ([],text)
  | _ + 1,[] => ([],[])
  | n + 1,c :: rest => if c = '\n' then ([c],rest) else
      ((c :: (fgets n rest).1),(fgets n rest).2)

theorem fgetsShorter (n : Nat) (text : Text) : (fgets n text).2.length ≤ text.length := by
  induction n generalizing text with
  | zero => exact le_refl _
  | succ n ih =>
    cases text with
    | nil => exact le_refl _
    | cons c rest =>
      unfold fgets
      split
      · exact Nat.le_succ _
      · exact Nat.le_succ_of_le (ih rest)

/- What fgets(buf,n+2,f) returns until it returns NULL. -/
def fgetsAll (n : Nat) (text : Text) : List Text :=
  match text with
  | [] => []
  | c :: rest => (fgets (n + 1) (c :: rest)).1 :: fgetsAll n (fgets (n + 1) (c :: rest)).2
termination_by text.length
decreasing_by
  unfold fgets
  split
  · exact Nat.lt_succ_self _
  · exact Nat.lt_succ_of_le (fgetsShorter n rest)

theorem decimalChar {n : Int} {c : Char} (member : c ∈ decimal n) : c = '-' ∨ c.isDigit := by
  have digit : ∀ c ∈ Nat.toDigits 10 n.natAbs, c.isDigit = true := fun c inside =>
    Nat.isDigit_of_mem_toDigits (by omega) (by omega) inside
  unfold decimal at member
  split at member
  · rcases List.mem_cons.mp member with rfl | inside
    · exact .inl rfl
    · exact .inr (digit c inside)
  · exact .inr (digit c member)

theorem decimalAvoids {c : Char} (other : c ≠ '-' ∧ c.isDigit = false) (n : Int) :
    c ∉ decimal n := by
  intro member
  rcases decimalChar member with dash | digit
  · exact other.1 dash
  · rw [other.2] at digit; cases digit

theorem scanDigits {neg : Bool} (n : Nat) {rest : Text}
    (stops : ∀ c ∈ rest.head?, c.isDigit = false) :
    scanNat neg (Nat.toDigits 10 n ++ rest) = some (if neg then -(n : Int) else n,rest) := by
  have digit : ∀ c ∈ Nat.toDigits 10 n, c.isDigit = true := fun c inside =>
    Nat.isDigit_of_mem_toDigits (by omega) (by omega) inside
  have noMore : rest.takeWhile Char.isDigit = [] ∧ rest.dropWhile Char.isDigit = rest := by
    cases rest with
    | nil => exact ⟨rfl,rfl⟩
    | cons c tail =>
      have notDigit : c.isDigit = false := stops c rfl
      simp [List.takeWhile,List.dropWhile,notDigit]
  have taken : (Nat.toDigits 10 n ++ rest).takeWhile Char.isDigit = Nat.toDigits 10 n := by
    rw [List.takeWhile_append_of_pos digit,noMore.1,List.append_nil]
  have dropped : (Nat.toDigits 10 n ++ rest).dropWhile Char.isDigit = rest := by
    rw [List.dropWhile_append_of_pos digit,noMore.2]
  unfold scanNat
  rw [taken,dropped]
  split
  · rename_i none
    exact absurd none Nat.toDigits_ne_nil
  · rw [Nat.ofDigitChars_ten_toDigits]

theorem scanDecimal (n : Int) (rest : Text) (stops : ∀ c ∈ rest.head?, c.isDigit = false) :
    scanInt (decimal n ++ rest) = some (n,rest) := by
  obtain ⟨d,ds,digits⟩ := List.exists_cons_of_ne_nil (Nat.toDigits_ne_nil (n := n.natAbs) (b := 10))
  have digit : d.isDigit = true :=
    Nat.isDigit_of_mem_toDigits (b := 10) (n := n.natAbs) (by omega) (by omega) (by simp [digits])
  have plain : isSpace d = false ∧ d ≠ '-' ∧ d ≠ '+' := by
    refine ⟨?_,?_,?_⟩
    · cases blank : isSpace d with
      | false => rfl
      | true =>
        simp only [isSpace,Bool.or_eq_true,decide_eq_true_eq] at blank
        rcases blank with ((((h | h) | h) | h) | h) | h <;> (subst h; cases digit)
    · intro h; subst h; cases digit
    · intro h; subst h; cases digit
  unfold decimal
  split
  · rename_i negative
    simp only [scanInt,List.cons_append,List.dropWhile]
    rw [show isSpace '-' = false from rfl]
    change scanNat true (Nat.toDigits 10 n.natAbs ++ rest) = some (n,rest)
    rw [scanDigits n.natAbs stops]
    simp only [if_true]
    congr 2
    omega
  · rename_i positive
    have skipped : (Nat.toDigits 10 n.natAbs ++ rest).dropWhile isSpace =
        Nat.toDigits 10 n.natAbs ++ rest := by
      rw [digits,List.cons_append,List.dropWhile,plain.1]
    have signless : scanInt (Nat.toDigits 10 n.natAbs ++ rest) =
        scanNat false (Nat.toDigits 10 n.natAbs ++ rest) := by
      unfold scanInt
      rw [skipped,digits,List.cons_append]
      split
      · rename_i same; exact absurd (List.cons.inj same).1 plain.2.1
      · rename_i same; exact absurd (List.cons.inj same).1 plain.2.2
      · rfl
    rw [signless,scanDigits n.natAbs stops]
    simp only [Bool.false_eq_true,if_false]
    congr 2
    omega

theorem newlineStops (rest : Text) : ∀ c ∈ ('\n' :: rest).head?, c.isDigit = false := by
  intro c head
  cases head
  rfl

theorem stoiDecimal {n : Int} (range : -2^31 ≤ n ∧ n < 2^31) (rest : Text) :
    stoi (decimal n ++ '\n' :: rest) = some n := by
  unfold stoi
  rw [scanDecimal n _ (newlineStops rest)]
  exact if_pos range

theorem pyIntDecimal (n : Int) : pyInt (decimal n ++ ['\n']) = some n := by
  unfold pyInt
  rw [scanDecimal n _ (newlineStops [])]
  rfl

theorem decimalInjective {m n : Int} (same : decimal m = decimal n) : m = n := by
  have left := scanDecimal m [] (by simp)
  have right := scanDecimal n [] (by simp)
  rw [same,right] at left
  simpa using left.symm

theorem linesCons {line : Text} (whole : '\n' ∉ line) (rest : Text) :
    lines (line ++ '\n' :: rest) = (line ++ ['\n']) :: lines rest := by
  induction line with
  | nil => simp [lines]
  | cons c tail ih =>
    have head : c ≠ '\n' := fun same => whole (same ▸ List.mem_cons_self)
    have more := ih (fun inside => whole (List.mem_cons_of_mem _ inside))
    simp only [List.cons_append,lines,if_neg head,more]

theorem linesAppend (text rest : Text) :
    lines (text ++ '\n' :: rest) = lines (text ++ ['\n']) ++ lines rest := by
  induction text with
  | nil => simp [lines]
  | cons c tail ih =>
    by_cases newline : c = '\n'
    · simp only [List.cons_append,lines,if_pos newline,ih]
    · have some_ : ∃ line more, lines (tail ++ ['\n']) = line :: more := by
        cases found : lines (tail ++ ['\n']) with
        | cons line more => exact ⟨line,more,rfl⟩
        | nil =>
          cases tail with
          | nil => simp [lines] at found
          | cons d ds =>
            simp only [List.cons_append,lines] at found
            split at found <;> try contradiction
            split at found <;> contradiction
      obtain ⟨line,more,found⟩ := some_
      simp only [List.cons_append,lines,if_neg newline,ih,found,List.cons_append]

theorem fgetsLine {line : Text} (whole : '\n' ∉ line) {n : Nat} (fits : line.length < n)
    (rest : Text) : fgets n (line ++ '\n' :: rest) = (line ++ ['\n'],rest) := by
  induction line generalizing n with
  | nil =>
    obtain ⟨m,rfl⟩ := Nat.exists_eq_succ_of_ne_zero (Nat.ne_of_gt fits)
    simp [fgets]
  | cons c tail ih =>
    obtain ⟨m,rfl⟩ := Nat.exists_eq_succ_of_ne_zero (Nat.ne_of_gt (Nat.zero_lt_of_lt fits))
    have head : c ≠ '\n' := fun same => whole (same ▸ List.mem_cons_self)
    have more := ih (fun inside => whole (List.mem_cons_of_mem _ inside)) (Nat.lt_of_succ_lt_succ fits)
    simp only [List.cons_append,fgets,if_neg head,more]

theorem fgetsAllLine {line : Text} (whole : '\n' ∉ line) {n : Nat} (fits : line.length ≤ n)
    (rest : Text) : fgetsAll n (line ++ '\n' :: rest) = (line ++ ['\n']) :: fgetsAll n rest := by
  have cut := fgetsLine whole (Nat.lt_succ_of_le fits) rest
  obtain ⟨c,tail,same⟩ := List.exists_cons_of_ne_nil
    (List.append_ne_nil_of_right_ne_nil line (List.cons_ne_nil '\n' rest))
  rw [same] at cut ⊢
  rw [fgetsAll,cut]

theorem fgetsAppend {n : Nat} {text : Text} (stops : '\n' ∈ text ∨ n ≤ text.length) (rest : Text) :
    fgets n (text ++ rest) = ((fgets n text).1,(fgets n text).2 ++ rest) := by
  induction n generalizing text with
  | zero => rfl
  | succ n ih =>
    cases text with
    | nil => rcases stops with inside | short <;> contradiction
    | cons c tail =>
      by_cases newline : c = '\n'
      · simp [fgets,newline]
      · have more : '\n' ∈ tail ∨ n ≤ tail.length := by
          rcases stops with inside | short
          · rcases List.mem_cons.mp inside with same | later
            · exact absurd same.symm newline
            · exact .inl later
          · exact .inr (Nat.le_of_succ_le_succ short)
        simp only [List.cons_append,fgets,if_neg newline,ih more]

theorem fgetsSuffix (n : Nat) (text : Text) : (fgets n text).2 <:+ text := by
  induction n generalizing text with
  | zero => exact List.suffix_refl _
  | succ n ih =>
    cases text with
    | nil => exact List.suffix_refl _
    | cons c tail =>
      unfold fgets
      split
      · exact List.suffix_cons c tail
      · exact (ih tail).trans (List.suffix_cons c tail)

theorem fgetsAllAppend {n : Nat} {first : Text} (whole : first = [] ∨ first.getLast? = some '\n')
    (rest : Text) : fgetsAll n (first ++ rest) = fgetsAll n first ++ fgetsAll n rest := by
  induction size : first.length using Nat.strong_induction_on generalizing first with
  | _ k ih =>
    cases first with
    | nil => rw [List.nil_append,fgetsAll,List.nil_append]
    | cons c tail =>
      have last : (c :: tail).getLast? = some '\n' := whole.resolve_left (List.cons_ne_nil c tail)
      have cut := fgetsAppend (n := n + 1) (.inl (List.mem_of_getLast? last)) rest
      have shorter : (fgets (n + 1) (c :: tail)).2.length < k := by
        rw [← size]
        unfold fgets
        split
        · exact Nat.lt_succ_self _
        · exact Nat.lt_succ_of_le (fgetsShorter n tail)
      have ends : (fgets (n + 1) (c :: tail)).2 = [] ∨
          (fgets (n + 1) (c :: tail)).2.getLast? = some '\n' := by
        obtain ⟨before,same⟩ := fgetsSuffix (n + 1) (c :: tail)
        cases left : (fgets (n + 1) (c :: tail)).2 with
        | nil => exact .inl rfl
        | cons d more =>
          rw [left] at same
          rw [← same,List.getLast?_append_of_ne_nil _ (List.cons_ne_nil d more)] at last
          exact .inr last
      rw [List.cons_append] at cut ⊢
      rw [fgetsAll,fgetsAll,cut]
      simp only [List.cons_append]
      rw [ih _ shorter ends rfl]

theorem fgetsKey {key : Text} (plain : '\n' ∉ key) (n : Nat) (rest : Text) :
    fgets (key.length + n) (key ++ rest) = (key ++ (fgets n rest).1,(fgets n rest).2) := by
  induction key with
  | nil => simp
  | cons c tail ih =>
    have head : c ≠ '\n' := fun same => plain (same ▸ List.mem_cons_self)
    have more := ih (fun inside => plain (List.mem_cons_of_mem c inside))
    have count : (c :: tail).length + n = tail.length + n + 1 := by
      rw [List.length_cons]
      omega
    rw [count]
    simp only [List.cons_append,fgets,if_neg head,more]

end Autonomizer.Format
