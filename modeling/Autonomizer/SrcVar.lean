import Mathlib
import Autonomizer.Vg2Dy

/-! checkSrcVar of Vg2Dy.py on lines that assign: which name it takes, for every head,
left-hand side, operator and right-hand side. -/
namespace Autonomizer.SrcVar
open Binary64 Format Vg2Dy

def NamedFirst (text name : Text) : Prop :=
  ∃ junk more, text = junk ++ name ++ more ∧ (∀ c ∈ junk, nameStart c = false) ∧
    ∀ c, more.head? = some c → nameChar c = false

def Name (name : Text) : Prop :=
  (∃ c, name.head? = some c ∧ nameStart c = true) ∧ ∀ c ∈ name, nameChar c = true

theorem startChar {c : Char} (start : nameStart c = true) : nameChar c = true := by
  simp only [nameStart,nameChar,Bool.or_eq_true,decide_eq_true_eq] at start ⊢
  refine start.imp id (fun alpha => ?_)
  rw [Char.isAlphanum,alpha,Bool.true_or]

theorem charBlank {c : Char} (blank : isSpace c = true) : nameChar c = false := by
  simp only [isSpace,Bool.or_eq_true,decide_eq_true_eq] at blank
  rcases blank with ((((h | h) | h) | h) | h) | h <;> (subst h; rfl)

theorem startBlank {c : Char} (blank : isSpace c = true) : nameStart c = false := by
  cases start : nameStart c with
  | false => rfl
  | true =>
    have char := charBlank blank
    rw [startChar start] at char
    cases char

theorem dropJunk {junk rest : Text} (junky : ∀ c ∈ junk, nameStart c = false)
    (starts : ∃ c, rest.head? = some c ∧ nameStart c = true) :
    (junk ++ rest).dropWhile (fun c => !nameStart c) = rest := by
  rw [List.dropWhile_append_of_pos (fun c inside => by rw [junky c inside]; rfl)]
  obtain ⟨c,head,start⟩ := starts
  cases rest with
  | nil => cases head
  | cons d rest =>
    cases head
    rw [List.dropWhile_cons_of_neg (by rw [start]; exact Bool.false_ne_true)]

theorem takeName {name more : Text} (chars : ∀ c ∈ name, nameChar c = true)
    (ends : ∀ c, more.head? = some c → nameChar c = false) :
    (name ++ more).takeWhile nameChar = name := by
  rw [List.takeWhile_append_of_pos chars]
  have none_ : more.takeWhile nameChar = [] := by
    cases more with
    | nil => rfl
    | cons c more => exact List.takeWhile_cons_of_neg (by rw [ends c rfl]; exact Bool.false_ne_true)
  rw [none_,List.append_nil]

theorem dropStops (p : Char → Bool) (text : Text) :
    ∀ c, (text.dropWhile p).head? = some c → p c = false := by
  intro c head
  have stops := List.head?_dropWhile_not p text
  rw [head] at stops
  exact stops

theorem firstNameOf {junk rest : Text} (junky : ∀ c ∈ junk, nameStart c = false)
    (starts : ∃ c, rest.head? = some c ∧ nameStart c = true) :
    firstName (junk ++ rest) = .ok (rest.takeWhile nameChar) := by
  unfold firstName
  rw [dropJunk junky starts]
  cases rest with
  | nil =>
    obtain ⟨c,head,_⟩ := starts
    cases head
  | cons c rest => rfl

theorem firstNameIff {text name : Text} (named : Name name) :
    firstName text = .ok name ↔ NamedFirst text name := by
  constructor
  · intro found
    have split := List.takeWhile_append_dropWhile (p := fun c => !nameStart c) (l := text)
    have junky : ∀ c ∈ text.takeWhile (fun c => !nameStart c), nameStart c = false := by
      intro c inside
      simpa using List.mem_takeWhile_imp inside
    unfold firstName at found
    split at found <;> try contradiction
    cases found
    have ends := List.takeWhile_append_dropWhile (p := nameChar)
      (l := text.dropWhile (fun c => !nameStart c))
    refine ⟨_,(text.dropWhile (fun c => !nameStart c)).dropWhile nameChar,?_,junky,dropStops _ _⟩
    rw [List.append_assoc,ends,split]
  · rintro ⟨junk,more,rfl,junky,ends⟩
    obtain ⟨c,head,start⟩ := named.1
    have starts : ∃ c, (name ++ more).head? = some c ∧ nameStart c = true :=
      ⟨c,by rw [List.head?_append,head]; rfl,start⟩
    rw [List.append_assoc,firstNameOf junky starts,takeName named.2 ends]

theorem firstNameAppend {text more : Text} (starts : ∃ c ∈ text, nameStart c = true)
    (ends : ∀ c, more.head? = some c → nameChar c = false) :
    firstName (text ++ more) = firstName text := by
  have some_ : text.dropWhile (fun c => !nameStart c) ≠ [] := by
    obtain ⟨c,inside,start⟩ := starts
    intro none_
    have no := List.dropWhile_eq_nil_iff.mp none_ c inside
    rw [start] at no
    cases no
  have noChars : more.takeWhile nameChar = [] := by
    cases more with
    | nil => rfl
    | cons c more => exact List.takeWhile_cons_of_neg (by rw [ends c rfl]; exact Bool.false_ne_true)
  unfold firstName
  rw [List.dropWhile_append]
  cases rest : text.dropWhile (fun c => !nameStart c) with
  | nil => exact absurd rest some_
  | cons c name =>
    rw [List.isEmpty_cons,if_neg Bool.false_ne_true,List.cons_append]
    simp only [← List.cons_append,List.takeWhile_append,noChars,List.append_nil]
    split
    · next whole => rw [(List.takeWhile_prefix nameChar).eq_of_length whole]
    · rfl

theorem namedStart {text name : Text} (named : Name name) (first : NamedFirst text name) :
    ∃ c ∈ text, nameStart c = true := by
  obtain ⟨junk,more,rfl,_,_⟩ := first
  obtain ⟨c,head,start⟩ := named.1
  exact ⟨c,List.mem_append_left _ (List.mem_append_right _ (List.mem_of_mem_head? head)),start⟩

theorem namedAppend {text more name : Text} (named : Name name)
    (starts : ∃ c ∈ text, nameStart c = true)
    (ends : ∀ c, more.head? = some c → nameChar c = false) :
    NamedFirst (text ++ more) name ↔ NamedFirst text name := by
  rw [← firstNameIff named,firstNameAppend starts ends,firstNameIff named]

theorem namedBlanks {front text name : Text} (blank : ∀ c ∈ front, isSpace c = true)
    (named : Name name) : NamedFirst (front ++ text) name ↔ NamedFirst text name := by
  have noStart : ∀ c ∈ front, (!nameStart c) = true := fun c inside => by
    rw [startBlank (blank c inside)]
    rfl
  rw [← firstNameIff named,← firstNameIff named]
  unfold firstName
  rw [List.dropWhile_append_of_pos noStart]

theorem stripSplit (text : Text) : ∃ front back, text = front ++ strip text ++ back ∧
    (∀ c ∈ front, isSpace c = true) ∧ ∀ c ∈ back, isSpace c = true := by
  let tail := text.dropWhile isSpace
  have first := List.takeWhile_append_dropWhile (p := isSpace) (l := text)
  have second := List.takeWhile_append_dropWhile (p := isSpace) (l := tail.reverse)
  have whole : tail = strip text ++ (tail.reverse.takeWhile isSpace).reverse := by
    rw [strip,← List.reverse_append,second,List.reverse_reverse]
  refine ⟨text.takeWhile isSpace,(tail.reverse.takeWhile isSpace).reverse,?_,?_,?_⟩
  · rw [List.append_assoc,← whole,first]
  · exact fun c inside => List.mem_takeWhile_imp inside
  · exact fun c inside => List.mem_takeWhile_imp (List.mem_reverse.mp inside)

theorem namedStrip {text name : Text} (named : Name name) :
    NamedFirst (strip text) name ↔ NamedFirst text name := by
  obtain ⟨front,back,split,ahead,behind⟩ := stripSplit text
  conv_rhs => rw [split,List.append_assoc]
  rw [namedBlanks ahead named]
  constructor
  · intro first
    refine (namedAppend named (namedStart named first) fun c head => ?_).mpr first
    exact charBlank (behind c (List.mem_of_mem_head? head))
  · intro first
    have starts : ∃ c ∈ strip text, nameStart c = true := by
      obtain ⟨c,inside,start⟩ := namedStart named first
      rcases List.mem_append.mp inside with inside | inside
      · exact ⟨c,inside,start⟩
      · rw [startBlank (behind c inside)] at start
        cases start
    exact (namedAppend named starts fun c head =>
      charBlank (behind c (List.mem_of_mem_head? head))).mp first

def find (part : String) (text : Text) : Option Nat := (before part.toList text).map List.length

theorem beforeCut {part text front : Text} (found : before part text = some front) :
    front ++ part <+: text := by
  induction text generalizing front with
  | nil =>
    unfold before at found
    split at found <;> try contradiction
    next none_ =>
    cases found
    rw [none_]
    exact List.prefix_refl _
  | cons c rest ih =>
    unfold before at found
    split at found
    · next here =>
      cases found
      exact List.isPrefixOf_iff_prefix.mp here
    · obtain ⟨front',later,rfl⟩ := Option.map_eq_some_iff.mp found
      exact List.cons_prefix_cons.mpr ⟨rfl,ih later⟩

theorem beforeNone {part text : Text} (some_ : part ≠ []) :
    before part text = none ↔ ¬ part <:+: text := by
  induction text with
  | nil => simp [before,some_]
  | cons c rest ih =>
    rw [before]
    by_cases here : part.isPrefixOf (c :: rest) = true
    · have inside : part <:+: c :: rest := (List.isPrefixOf_iff_prefix.mp here).isInfix
      simp [here,inside]
    · rw [if_neg here,Option.map_eq_none_iff,ih,List.infix_cons_iff]
      have other : ¬ part <+: c :: rest := fun begins => here (List.isPrefixOf_iff_prefix.mpr begins)
      simp [other]

def cutAt (text : Text) : Option Nat :=
  let divided : Option Nat := match find "\\=" text with
    | some _ => some ((find "/=" text).getD (text.length - 1))
    | none => find " = " text
  (["++","--","+=","-=","*="].findSome? (fun part => find part text)).or divided

theorem findTake {part : String} {text front : Text} (found : before part.toList text = some front) :
    front = text.take front.length := by
  obtain ⟨rest,rfl⟩ := beforeCut found
  rw [List.append_assoc,List.take_left]

theorem leftHandSideCut (text : Text) :
    leftHandSide text = (cutAt text).map (fun n => strip (text.take n)) := by
  have one (part : String) : (before part.toList text).map strip =
      (find part text).map (fun n => strip (text.take n)) := by
    cases found : before part.toList text with
    | none => simp [find,found]
    | some front => simp [find,found,← findTake found]
  have first (parts : List String) : parts.findSome? (fun part => (before part.toList text).map strip) =
      (parts.findSome? (fun part => find part text)).map (fun n => strip (text.take n)) := by
    rw [List.map_findSome?]
    refine congrArg (parts.findSome? ·) (funext one)
  unfold leftHandSide cutAt
  simp only [Option.map_or,← first]
  refine congrArg _ ?_
  cases slash : before "\\=".toList text with
  | none =>
    have blank := one " = "
    simp only [find,slash,Option.map_none] at blank ⊢
    rw [← blank]
    cases before " = ".toList text <;> rfl
  | some front =>
    simp only [find,slash,Option.map_some]
    cases found : before "/=".toList text with
    | none => rw [Option.map_none,Option.getD_none,Option.getD_none,List.dropLast_eq_take]
    | some front => rw [Option.map_some,Option.getD_some,Option.getD_some,← findTake found]

def tested : List String := ["++","--","+=","-=","*=","\\="," = "]

theorem findSome {part : String} (some_ : part.toList ≠ []) (text : Text) :
    (find part text).isSome = true ↔ part.toList <:+: text := by
  rw [find,Option.isSome_map,Option.isSome_iff_ne_none,ne_eq,beforeNone some_,not_not]

theorem cutSome (text : Text) : (∃ n, cutAt text = some n) ↔ ∃ part ∈ tested, part.toList <:+: text := by
  have each (part : String) (some_ : part.toList ≠ []) := findSome some_ text
  have divided : (match find "\\=" text with
      | some _ => some ((find "/=" text).getD (text.length - 1))
      | none => find " = " text).isSome = true ↔
      "\\=".toList <:+: text ∨ " = ".toList <:+: text := by
    rw [← each "\\=" (by decide),← each " = " (by decide)]
    cases find "\\=" text <;> simp
  rw [← Option.isSome_iff_exists,cutAt,Option.isSome_or,Bool.or_eq_true,divided]
  simp only [tested,List.findSome?_isSome_iff,List.mem_cons,List.not_mem_nil,or_false]
  constructor
  · rintro (⟨part,known,found⟩ | slash | blank)
    · refine ⟨part,?_,(each part ?_).mp found⟩
      · tauto
      · rcases known with rfl | rfl | rfl | rfl | rfl <;> decide
    · exact ⟨_,by tauto,slash⟩
    · exact ⟨_,by tauto,blank⟩
  · rintro ⟨part,known | known | known | known | known | known | known,inside⟩
    all_goals subst known
    · exact .inl ⟨_,.inl rfl,(each _ (by decide)).mpr inside⟩
    · exact .inl ⟨_,.inr (.inl rfl),(each _ (by decide)).mpr inside⟩
    · exact .inl ⟨_,.inr (.inr (.inl rfl)),(each _ (by decide)).mpr inside⟩
    · exact .inl ⟨_,.inr (.inr (.inr (.inl rfl))),(each _ (by decide)).mpr inside⟩
    · exact .inl ⟨_,.inr (.inr (.inr (.inr rfl))),(each _ (by decide)).mpr inside⟩
    · exact .inr (.inl inside)
    · exact .inr (.inr inside)

def operators : List String := ["++","--","+=","-=","*=","/="," = "]

/- The line is cut at one of them, or, where a backslash is found, before its last character. -/
theorem cutAtPart {text : Text} {n : Nat} (cut : cutAt text = some n) :
    (∃ part ∈ operators, text.take n ++ part.toList <+: text) ∨
      "\\=".toList <:+: text ∧ n = text.length - 1 := by
  have one {part : String} (found : find part text = some n) : text.take n ++ part.toList <+: text := by
    obtain ⟨front,split,rfl⟩ := Option.map_eq_some_iff.mp found
    rw [← findTake split]
    exact beforeCut split
  rw [cutAt,Option.or_eq_some_iff] at cut
  rcases cut with found | ⟨_,divided⟩
  · obtain ⟨part,known,found⟩ := List.exists_of_findSome?_eq_some found
    refine .inl ⟨part,?_,one found⟩
    simp only [List.mem_cons,List.not_mem_nil,or_false] at known
    rcases known with rfl | rfl | rfl | rfl | rfl <;> decide
  · cases slash : find "\\=" text with
    | none =>
      simp only [slash] at divided
      exact .inl ⟨" = ",by decide,one divided⟩
    | some at_ =>
      simp only [slash,Option.some.injEq] at divided
      cases found : find "/=" text with
      | none =>
        rw [found,Option.getD_none] at divided
        exact .inr ⟨(findSome (by decide) text).mp (by rw [slash]; rfl),divided.symm⟩
      | some k =>
        rw [found,Option.getD_some] at divided
        exact .inl ⟨"/=",by decide,one (divided ▸ found)⟩

theorem operatorChars : ∀ part ∈ operators, ∀ c ∈ part.toList, nameChar c = false := by
  have all : operators.all (fun part => part.toList.all (fun c => !nameChar c)) = true := by
    decide +kernel
  simpa only [List.all_eq_true,Bool.not_eq_true'] using all

/- A part without characters of a name begins after a word, where it is not found before it. -/
theorem partAfter {text word more front part : Text} (chars : ∀ c ∈ word, nameChar c = true)
    (other : ∀ c ∈ part, nameChar c = false) (plain : ¬ part <:+: text)
    (some_ : word ≠ []) (at_ : front ++ part <+: text ++ word ++ more) :
    (text ++ word).length ≤ front.length := by
  by_contra short
  rw [not_le,List.length_append] at short
  have positive := List.length_pos_iff.mpr some_
  rcases Nat.le_total (front ++ part).length text.length with fits | long
  · have before_ : text <+: text ++ word ++ more :=
      (List.prefix_append text word).trans (List.prefix_append _ more)
    have inside := List.prefix_of_prefix_length_le at_ before_ fits
    exact plain ((List.suffix_append front part).isInfix.trans inside.isInfix)
  · -- a character of the part is one of the word
    have some_ : part ≠ [] := fun none_ => plain (none_ ▸ List.nil_infix)
    have length := List.length_pos_iff.mpr some_
    rw [List.length_append] at long
    obtain ⟨i,least,most,inPart⟩ : ∃ i, max front.length text.length ≤ i ∧
        i < text.length + word.length ∧ i < front.length + part.length := by
      by_cases later : front.length < text.length
      · rcases Nat.lt_or_eq_of_le long with long | same
        · exact ⟨text.length,by omega,by omega,long⟩
        · have before_ : text <+: text ++ word ++ more :=
            (List.prefix_append text word).trans (List.prefix_append _ more)
          have inside := List.prefix_of_prefix_length_le at_ before_ (by
            rw [List.length_append,← same])
          exact absurd ((List.suffix_append front part).isInfix.trans inside.isInfix) plain
      · exact ⟨front.length,by omega,short,by omega⟩
    obtain ⟨rest,whole⟩ := at_
    have left : (front ++ part ++ rest)[i]? = part[i - front.length]? := by
      rw [List.append_assoc,List.getElem?_append_right (by omega),List.getElem?_append_left (by omega)]
    have right : (text ++ word ++ more)[i]? = word[i - text.length]? := by
      rw [List.append_assoc,List.getElem?_append_right (by omega),List.getElem?_append_left (by omega)]
    have same : part[i - front.length]? = word[i - text.length]? := by
      rw [← left,← right,whole]
    have at_ : i - front.length < part.length := by omega
    rw [List.getElem?_eq_getElem at_] at same
    have inWord := chars _ (List.mem_of_getElem? same.symm)
    rw [other _ (List.getElem_mem at_)] at inWord
    cases inWord

def Shows (text name : Text) : Prop := ∃ n, cutAt text = some n ∧ NamedFirst (text.take n) name

theorem takenIff {text name : Text} (named : Name name) :
    ((match leftHandSide text with
      | none => .ok none
      | some LHS => (firstName LHS).map some : Except PyError (Option Text)) = .ok (some name)) ↔
    Shows text name := by
  rw [leftHandSideCut]
  cases cut : cutAt text with
  | none => exact ⟨nofun,fun ⟨_,found,_⟩ => by rw [cut] at found; cases found⟩
  | some n =>
    simp only [Option.map_some]
    constructor
    · intro taken
      cases found : firstName (strip (text.take n)) with
      | error e => rw [found] at taken; cases taken
      | ok first =>
        rw [found] at taken
        cases taken
        exact ⟨n,cut,(namedStrip named).mp ((firstNameIff named).mp found)⟩
    · rintro ⟨k,same,first⟩
      rw [cut] at same
      cases same
      rw [(firstNameIff named).mpr ((namedStrip named).mpr first)]
      rfl

theorem stripBetween {front text : Text} {c d : Char} (blank : ∀ c ∈ front, isSpace c = true)
    (first : text.head? = some c) (firstDark : isSpace c = false) (last : text.getLast? = some d)
    (lastDark : isSpace d = false) : strip (front ++ text) = text := by
  have kept : text.dropWhile isSpace = text := by
    cases text with
    | nil => rfl
    | cons e text =>
      cases first
      exact List.dropWhile_cons_of_neg (by rw [firstDark]; exact Bool.false_ne_true)
  have whole : text.reverse.dropWhile isSpace = text.reverse := by
    rw [← List.head?_reverse] at last
    cases back : text.reverse with
    | nil => rfl
    | cons e back =>
      rw [back] at last
      cases last
      exact List.dropWhile_cons_of_neg (by rw [lastDark]; exact Bool.false_ne_true)
  rw [strip,List.dropWhile_append_of_pos blank,kept,whole,List.reverse_reverse]

/- What is left of a stripped line after the if pattern has been looked for. -/
def left (srcLine : Text) : Text :=
  match ifSearch srcLine with
  | some n => strip (srcLine.drop n)
  | none => srcLine

theorem checkSrcVarIff {source line name : Text} {lineInfo : Int} (named : Name name)
    (there : (lines source)[(lineInfo - 1).toNat]? = some line) :
    checkSrcVar source lineInfo = .ok (some name) ↔ Shows (left (strip line)) name := by
  rw [← takenIff named,checkSrcVar,there]
  rfl

inductive Head where
  | none_
  | else_ (gap : Text)
  | if_ (gap cond after : Text)
  | elseIf (between gap cond after : Text)

def ifText (gap cond after : Text) : Text :=
  'i' :: 'f' :: (gap ++ '(' :: (cond ++ ')' :: after))

def Head.text : Head → Text
  | .none_ => []
  | .else_ gap => "else".toList ++ gap
  | .if_ gap cond after => ifText gap cond after
  | .elseIf between gap cond after => "else".toList ++ between ++ ifText gap cond after

def Blank (text : Text) : Prop := ∀ c ∈ text, isSpace c = true

def Head.Formed : Head → Prop
  | .none_ => True
  | .else_ gap => Blank gap ∧ gap ≠ []
  | .if_ gap cond after => Blank gap ∧ cond ≠ [] ∧ Blank after
  | .elseIf between gap cond after => Blank between ∧ between ≠ [] ∧ Blank gap ∧ cond ≠ [] ∧ Blank after

inductive AssignOp where
  | inc | dec | add | sub | mul | div | set
  deriving DecidableEq, Repr

def AssignOp.text : AssignOp → String
  | .inc => "++"
  | .dec => "--"
  | .add => "+="
  | .sub => "-="
  | .mul => "*="
  | .div => "/="
  | .set => " = "

def keywords : List Text :=
  ["auto","break","case","char","const","continue","default","do","double","else","enum","extern",
    "float","for","goto","if","int","long","register","return","short","signed","sizeof","static",
    "struct","switch","typedef","union","unsigned","void","volatile","while"].map String.toList

/- A line that assigns: head, left-hand side, operator and right-hand side. -/
structure Form where
  head : Head
  ident : Text
  suffix : Text
  gap : Text
  op : AssignOp
  rest : Text
  formed : head.Formed
  named : Name ident
  word : ident ∉ keywords
  ends : ∀ c, suffix.head? = some c → nameChar c = false
  blank : Blank gap
  plainLeft : ∀ o ∈ operators, ¬ o.toList <:+: ident ++ suffix ++ gap
  plainRight : ∀ o ∈ operators, ¬ o.toList <:+: rest
  semicolon : rest.getLast? = some ';'

def Form.assign (f : Form) : Text := f.ident ++ (f.suffix ++ (f.gap ++ (f.op.text.toList ++ f.rest)))

def Form.text (f : Form) : Text := f.head.text ++ f.assign

/- How many characters the if pattern takes; checkSrcVar takes them off the start. -/
def Form.taken (f : Form) : Nat := (ifSearch f.text).getD 0

def Form.headLeft (f : Form) : Text := f.head.text.drop f.taken

def Form.lhs (f : Form) : Text := f.ident ++ f.suffix ++ f.gap

structure Form.Good (f : Form) : Prop where
  within : f.taken ≤ f.head.text.length
  plain : ∀ o ∈ operators, ¬ o.toList <:+: f.headLeft
  first : NamedFirst (f.headLeft ++ f.ident) f.ident
  tested : ∃ part ∈ tested, part.toList <:+: f.assign

/- Lines on which it is found for no other reason: nothing of the line but the operator
looks like one, and the identifier is not repeated in its own index. -/
structure Form.Usual (f : Form) : Prop where
  noBackslash : ¬ "\\=".toList <:+: f.text
  plain : ∀ o ∈ operators, ¬ o.toList <:+: f.headLeft
  once : ∀ k, 0 < k → ¬ NamedFirst (f.lhs.drop k) f.ident

/- The pattern takes the head, all of it and nothing else. -/
def Form.Exact (f : Form) : Prop :=
  match f.head with
  | .none_ => ifSearch f.text = none
  | .if_ .. => ')' ∉ f.assign
  | _ => False

theorem opOther (op : AssignOp) : ∀ c, op.text.toList.head? = some c → nameChar c = false := by
  intro c head
  cases op <;> (cases head; rfl)

theorem opSome (op : AssignOp) : op.text.toList ≠ [] := by
  cases op <;> decide

section
variable (f : Form)

theorem assignEnds : ∀ c, (f.suffix ++ (f.gap ++ (f.op.text.toList ++ f.rest))).head? = some c →
    nameChar c = false := by
  intro c head
  rw [List.head?_append,Option.or_eq_some_iff] at head
  rcases head with suffix | ⟨_,head⟩
  · exact f.ends c suffix
  · rw [List.head?_append,Option.or_eq_some_iff] at head
    rcases head with gap | ⟨_,head⟩
    · exact charBlank (f.blank c (List.mem_of_mem_head? gap))
    · rw [List.head?_append_of_ne_nil _ (opSome f.op)] at head
      exact opOther f.op c head

theorem assignMore : f.suffix ++ (f.gap ++ (f.op.text.toList ++ f.rest)) ≠ [] := by
  simp [opSome f.op]

theorem assignStrip (front : Text) :
    strip (front ++ f.assign) = front.dropWhile isSpace ++ f.assign := by
  obtain ⟨c,head,start⟩ := f.named.1
  have first : f.assign.head? = some c := by
    rw [Form.assign,List.head?_append,head]
    rfl
  have last : (front.dropWhile isSpace ++ f.assign).getLast? = some ';' := by
    simp only [Form.assign,List.getLast?_append,f.semicolon,Option.some_or]
  have split := List.takeWhile_append_dropWhile (p := isSpace) (l := front)
  have blank : ∀ c ∈ front.takeWhile isSpace, isSpace c = true := fun c inside =>
    List.mem_takeWhile_imp inside
  have stops := dropStops isSpace front
  conv_lhs => rw [← split,List.append_assoc]
  cases rest : front.dropWhile isSpace with
  | nil =>
    rw [rest] at last
    refine stripBetween blank first ?_ last rfl
    cases dark : isSpace c with
    | false => rfl
    | true =>
      rw [startBlank dark] at start
      cases start
  | cons d more =>
    rw [rest] at last stops
    exact stripBetween blank rfl (stops d rfl) last rfl

theorem leftWithin (within : f.taken ≤ f.head.text.length) : ∃ front text, Blank front ∧
    f.headLeft = front ++ text ∧ left f.text = text ++ f.assign := by
  unfold Form.headLeft Form.taken at *
  cases found : ifSearch f.text with
  | none => exact ⟨[],f.head.text,nofun,rfl,by rw [left,found]; rfl⟩
  | some n =>
    rw [found,Option.getD_some] at within
    refine ⟨(f.head.text.drop n).takeWhile isSpace,(f.head.text.drop n).dropWhile isSpace,
      fun c inside => List.mem_takeWhile_imp inside,?_,?_⟩
    · exact (List.takeWhile_append_dropWhile (p := isSpace) (l := f.head.text.drop n)).symm
    · rw [left,found]
      simp only [Form.text]
      rw [List.drop_append_of_le_length within,assignStrip]

theorem leftBeyond (beyond : f.head.text.length < f.taken) :
    left f.text = strip (f.assign.drop (f.taken - f.head.text.length)) := by
  unfold Form.taken at *
  cases found : ifSearch f.text with
  | none =>
    rw [found,Option.getD_none] at beyond
    omega
  | some n =>
    rw [found,Option.getD_some] at beyond
    rw [left,found,Option.getD_some]
    simp only [Form.text]
    rw [List.drop_append,List.drop_eq_nil_of_le (Nat.le_of_lt beyond),List.nil_append]

theorem cutAfter {text : Text} {n : Nat} (plain : ∀ o ∈ operators, ¬ o.toList <:+: text)
    (cut : cutAt (text ++ f.assign) = some n) : (text ++ f.ident).length ≤ n ∧
      ∃ more, (text ++ f.assign).take n = text ++ f.ident ++ more ∧
        ∀ c, more.head? = some c → nameChar c = false := by
  let more := f.suffix ++ (f.gap ++ (f.op.text.toList ++ f.rest))
  have shape : text ++ f.assign = text ++ f.ident ++ more := (List.append_assoc ..).symm
  have some_ : f.ident ≠ [] := by
    obtain ⟨c,head,_⟩ := f.named.1
    intro none_
    rw [none_] at head
    cases head
  rw [shape] at cut ⊢
  have bound : n ≤ (text ++ f.ident ++ more).length ∧ (text ++ f.ident).length ≤ n := by
    rcases cutAtPart cut with ⟨part,known,at_⟩ | ⟨_,last⟩
    · have after := partAfter f.named.2 (operatorChars part known) (plain part known) some_ at_
      have inside := at_.length_le
      rw [List.length_append,List.length_take] at inside
      have taken := List.length_take_le n (text ++ f.ident ++ more)
      have positive : part.toList ≠ [] := fun none_ => plain part known (none_ ▸ List.nil_infix)
      have length := List.length_pos_iff.mpr positive
      exact ⟨by omega,after.trans taken⟩
    · have long := List.length_pos_iff.mpr (assignMore f)
      have size : (text ++ f.ident ++ more).length = (text ++ f.ident).length + more.length :=
        List.length_append
      change 0 < more.length at long
      omega
  refine ⟨bound.2,more.take (n - (text ++ f.ident).length),?_,fun c head => ?_⟩
  · rw [List.take_append,List.take_of_length_le bound.2]
  · rw [List.head?_take] at head
    split at head
    · cases head
    · exact assignEnds f c head

theorem identStart (text : Text) : ∃ c ∈ text ++ f.ident, nameStart c = true := by
  obtain ⟨c,head,start⟩ := f.named.1
  exact ⟨c,List.mem_append_right _ (List.mem_of_mem_head? head),start⟩

theorem goodShows (good : f.Good) : Shows (left f.text) f.ident := by
  obtain ⟨front,text,blank,split,same⟩ := leftWithin f good.within
  have plain : ∀ o ∈ operators, ¬ o.toList <:+: text := fun o known inside =>
    good.plain o known (inside.trans (split ▸ (List.suffix_append front text).isInfix))
  obtain ⟨part,known,inside⟩ := good.tested
  obtain ⟨n,cut⟩ := (cutSome (text ++ f.assign)).mpr
    ⟨part,known,inside.trans (List.suffix_append text _).isInfix⟩
  obtain ⟨_,more,taken,ends⟩ := cutAfter f plain cut
  rw [same]
  refine ⟨n,cut,?_⟩
  rw [taken,namedAppend f.named (identStart f text) ends]
  have first := good.first
  rwa [split,List.append_assoc,namedBlanks blank f.named] at first

end

theorem infixSide {c : Char} {part first rest : Text} (other : c ∉ part)
    (inside : part <:+: first ++ c :: rest) : part <:+: first ∨ part <:+: rest := by
  obtain ⟨s,t,whole⟩ := inside
  rcases List.append_eq_append_iff.mp whole with ⟨more,same,_⟩ | ⟨more,same,tail⟩
  · exact .inl ⟨s,more,same.symm⟩
  · cases more with
    | nil => exact .inl ⟨s,[],by rw [same,List.append_nil,List.append_nil]⟩
    | cons d more =>
      obtain ⟨rfl,rfl⟩ := List.cons.inj tail
      rcases List.append_eq_append_iff.mp same with ⟨x,_,split⟩ | ⟨x,_,split⟩
      · exact absurd (split ▸ List.mem_append_right x List.mem_cons_self) other
      · cases x with
        | nil =>
          rw [List.nil_append] at split
          exact absurd (split ▸ List.mem_cons_self) other
        | cons e x =>
          obtain ⟨_,rfl⟩ := List.cons.inj split
          exact .inr ⟨x,t,rfl⟩

theorem testedPlain : ∀ part ∈ tested, (part = "\\=" ∨ part ∈ operators) ∧ '/' ∉ part.toList ∧
    part.toList.head? ≠ some '=' ∧ part.toList ≠ [] := by
  decide

theorem testedChars : ∀ part ∈ tested, ∀ c ∈ part.toList, nameChar c = false := by
  have all : tested.all (fun part => part.toList.all (fun c => !nameChar c)) = true := by
    decide +kernel
  simpa only [List.all_eq_true,Bool.not_eq_true'] using all

section
variable {f : Form}

theorem showsWithin (usual : f.Usual) (within : f.taken ≤ f.head.text.length)
    (shows : Shows (left f.text) f.ident) : f.Good := by
  obtain ⟨front,text,blank,split,same⟩ := leftWithin f within
  have part_ : text <:+: f.headLeft := split ▸ (List.suffix_append front text).isInfix
  have plain : ∀ o ∈ operators, ¬ o.toList <:+: text := fun o known inside =>
    usual.plain o known (inside.trans part_)
  rw [same] at shows
  obtain ⟨n,cut,first⟩ := shows
  obtain ⟨_,more,taken,ends⟩ := cutAfter f plain cut
  rw [taken,namedAppend f.named (identStart f text) ends] at first
  refine ⟨within,usual.plain,?_,?_⟩
  · rwa [split,List.append_assoc,namedBlanks blank f.named]
  · obtain ⟨part,known,inside⟩ := (cutSome _).mp ⟨n,cut⟩
    obtain ⟨c,head,start⟩ := f.named.1
    obtain ⟨ident,shape⟩ : ∃ ident, f.ident = c :: ident := by
      cases word : f.ident with
      | nil => rw [word] at head; cases head
      | cons d ident => rw [word] at head; cases head; exact ⟨ident,rfl⟩
    have other : c ∉ part.toList := fun within_ => by
      have char := testedChars part known c within_
      rw [startChar start] at char
      cases char
    refine ⟨part,known,?_⟩
    rw [Form.assign,shape] at inside
    rcases infixSide other inside with before_ | after
    · exfalso
      rcases (testedPlain part known).1 with rfl | operator
      · have inHead : f.headLeft <:+: f.text :=
          ((List.drop_suffix ..).isInfix).trans (List.prefix_append _ f.assign).isInfix
        exact usual.noBackslash (before_.trans (part_.trans inHead))
      · exact plain part operator before_
    · rw [Form.assign,shape]
      exact after.trans (List.suffix_cons c _).isInfix

theorem assignDrop (k : Nat) : f.assign.drop k = f.lhs.drop k ++ f.op.text.toList.drop (k - f.lhs.length) ++
    f.rest.drop (k - f.lhs.length - f.op.text.toList.length) := by
  have whole : f.assign = f.lhs ++ (f.op.text.toList ++ f.rest) := by
    simp only [Form.assign,Form.lhs,List.append_assoc]
  rw [whole,List.drop_append,List.drop_append,List.append_assoc]

/- What is cut off in front of an operator is in the left-hand side, as nothing of the
right-hand side is one. -/
theorem namedOfCut {cutOff : Text} {part : String} {k : Nat} (known : part ∈ operators)
    (named : NamedFirst cutOff f.ident) (here : cutOff ++ part.toList <+: f.assign.drop k) :
    NamedFirst (f.lhs.drop k) f.ident := by
  let op := f.op.text.toList.drop (k - f.lhs.length)
  let rest := f.rest.drop (k - f.lhs.length - f.op.text.toList.length)
  rw [assignDrop] at here
  have opChars : ∀ c ∈ op, nameChar c = false := by
    intro c inside
    have known : f.op.text ∈ operators := by cases f.op <;> decide
    exact operatorChars _ known c (List.mem_of_mem_drop inside)
  rcases Nat.lt_or_ge cutOff.length (f.lhs.drop k ++ op).length with before_ | after
  · have cutOffBegins : cutOff <+: f.lhs.drop k ++ op :=
      List.prefix_of_prefix_length_le ((List.prefix_append ..).trans here) (List.prefix_append ..)
        before_.le
    rcases Nat.lt_or_ge cutOff.length (f.lhs.drop k).length with within | past
    · obtain ⟨more,same⟩ := List.prefix_of_prefix_length_le cutOffBegins (List.prefix_append ..) within.le
      rw [← same,List.append_assoc,List.append_assoc,List.prefix_append_right_inj] at here
      rw [← same]
      refine (namedAppend f.named (namedStart f.named named) fun c head => ?_).mpr named
      cases more with
      | nil => cases head
      | cons d more =>
        cases head
        have some_ : part.toList ≠ [] := fun none_ => f.plainRight part known (none_ ▸ List.nil_infix)
        cases chars : part.toList with
        | nil => exact absurd chars some_
        | cons e tail =>
          rw [chars,List.cons_append,List.cons_prefix_cons] at here
          exact operatorChars part known _ (by rw [chars,here.1]; exact List.mem_cons_self)
    · obtain ⟨more,same⟩ := List.prefix_of_prefix_length_le (List.prefix_append ..) cutOffBegins past
      have moreChars : ∀ c ∈ more, nameChar c = false := by
        rw [← same,List.prefix_append_right_inj] at cutOffBegins
        exact fun c inside => opChars c (cutOffBegins.mem inside)
      rw [← same] at named
      have starts : ∃ c ∈ f.lhs.drop k, nameStart c = true := by
        obtain ⟨c,inside,start⟩ := namedStart f.named named
        rcases List.mem_append.mp inside with inside | inside
        · exact ⟨c,inside,start⟩
        · have char := moreChars c inside
          rw [startChar start] at char
          cases char
      exact (namedAppend f.named starts fun c head => moreChars c (List.mem_of_mem_head? head)).mp named
  · -- nothing of the right-hand side is an operator
    exfalso
    obtain ⟨more,same⟩ := List.prefix_of_prefix_length_le (List.prefix_append _ rest)
      ((List.prefix_append ..).trans here) after
    rw [← same,List.append_assoc (f.lhs.drop k ++ op),List.prefix_append_right_inj] at here
    exact f.plainRight part known (((List.suffix_append more part.toList).isInfix.trans
      here.isInfix).trans (List.drop_suffix ..).isInfix)

theorem missedBeyond (usual : f.Usual) (beyond : f.head.text.length < f.taken) :
    ¬ Shows (left f.text) f.ident := by
  rw [leftBeyond f beyond]
  obtain ⟨k,positive,size⟩ : ∃ k, 0 < k ∧ f.taken - f.head.text.length = k :=
    ⟨_,by omega,rfl⟩
  rw [size]
  rintro ⟨n,cut,first⟩
  obtain ⟨front,back,split,ahead,_⟩ := stripSplit (f.assign.drop k)
  have inside : f.assign.drop k <:+: f.text :=
    (List.drop_suffix k _).isInfix.trans (List.suffix_append f.head.text _).isInfix
  rcases cutAtPart cut with ⟨part,known,at_⟩ | ⟨slash,_⟩
  · -- the operator, and what is before it, in what is left of the assignment
    obtain ⟨cutOff,named,here⟩ : ∃ cutOff, NamedFirst cutOff f.ident ∧
        cutOff ++ part.toList <+: f.assign.drop k := by
      refine ⟨_,(namedBlanks ahead f.named).mpr first,?_⟩
      conv_rhs => rw [split]
      simp only [List.append_assoc,List.prefix_append_right_inj]
      exact at_.trans (List.prefix_append _ back)
    exact usual.once k positive (namedOfCut known named here)
  · exact usual.noBackslash ((slash.trans ⟨front,back,split.symm⟩).trans inside)

end

/- For every line of the form: the identifier is returned where the line is good, and on
the usual lines nowhere else. -/
theorem returnsIff (f : Form) {source line : Text} {lineInfo : Int}
    (there : (lines source)[(lineInfo - 1).toNat]? = some line) (stripped : strip line = f.text) :
    (f.Good → checkSrcVar source lineInfo = .ok (some f.ident)) ∧
      (f.Usual → (checkSrcVar source lineInfo = .ok (some f.ident) ↔ f.Good)) := by
  have shows := checkSrcVarIff f.named there
  rw [stripped] at shows
  refine ⟨fun good => shows.mpr (goodShows f good),fun usual => ⟨fun returned => ?_,fun good =>
    shows.mpr (goodShows f good)⟩⟩
  rcases Nat.lt_or_ge f.head.text.length f.taken with beyond | within
  · exact absurd (shows.mp returned) (missedBeyond usual beyond)
  · exact showsWithin usual within (shows.mp returned)

theorem ifTaken {gap body rest : Text} (blank : Blank gap) (some_ : body ≠ []) (closed : ')' ∉ rest) :
    ifSearch ('i' :: 'f' :: (gap ++ '(' :: (body ++ ')' :: rest))) =
      some (ifText gap body []).length := by
  have dropped : (gap ++ '(' :: (body ++ ')' :: rest)).dropWhile isSpace =
      '(' :: (body ++ ')' :: rest) := by
    rw [List.dropWhile_append_of_pos blank]
    exact List.dropWhile_cons_of_neg Bool.false_ne_true
  have taken : (gap ++ '(' :: (body ++ ')' :: rest)).takeWhile isSpace = gap := by
    rw [List.takeWhile_append_of_pos blank,List.takeWhile_cons_of_neg Bool.false_ne_true,
      List.append_nil]
  have inside : upToLast ')' (body ++ ')' :: rest) = body ++ [')'] := upToLastOf body closed
  have long : 2 ≤ (body ++ [')']).length := by
    have positive := List.length_pos_iff.mpr some_
    rw [List.length_append,List.length_singleton]
    omega
  simp only [ifSearch,ifHere,dropped,taken,inside,if_pos long]
  refine congrArg some ?_
  simp only [ifText,List.length_cons,List.length_append,List.length_nil]
  omega

theorem assignTested {f : Form} (other : f.op ≠ .div) : ∃ part ∈ tested, part.toList <:+: f.assign := by
  have inside : f.op.text.toList <:+: f.assign :=
    ⟨f.ident ++ (f.suffix ++ f.gap),f.rest,by simp only [Form.assign,List.append_assoc]⟩
  refine ⟨f.op.text,?_,inside⟩
  cases op : f.op with
  | div => exact absurd op other
  | _ => decide

/- Where the pattern takes exactly the head, the line is good with any operator but the division. -/
theorem exactGood {f : Form} (exact : f.Exact) (other : f.op ≠ .div) : f.Good := by
  have blankLeft (within : f.taken ≤ f.head.text.length) (blank : Blank f.headLeft) : f.Good := by
    refine ⟨within,fun o known inside => ?_,?_,assignTested other⟩
    · have dark : operators.all (fun o => o.toList.any (fun c => !isSpace c)) = true := by
        decide +kernel
      obtain ⟨c,at_,dark⟩ := List.any_eq_true.mp (List.all_eq_true.mp dark o known)
      rw [blank c (inside.mem at_)] at dark
      cases dark
    · rw [namedBlanks blank f.named]
      exact ⟨[],[],by simp,nofun,nofun⟩
  unfold Form.Exact at exact
  split at exact
  · next none_ =>
    have taken : f.taken = 0 := by rw [Form.taken,exact,Option.getD_none]
    refine blankLeft (taken ▸ Nat.zero_le _) ?_
    rw [Form.headLeft,none_]
    intro c inside
    cases List.mem_of_mem_drop inside
  · next gap cond after here =>
    have formed := f.formed
    rw [here] at formed
    obtain ⟨blank,some_,behind⟩ := formed
    have shape : f.text = 'i' :: 'f' :: (gap ++ '(' :: (cond ++ ')' :: (after ++ f.assign))) := by
      rw [Form.text,here,Head.text,ifText]
      simp only [List.cons_append,List.append_assoc]
    have closed : ')' ∉ after ++ f.assign := by
      rw [List.mem_append,not_or]
      exact ⟨fun inside => (by cases behind _ inside),exact⟩
    have taken : f.taken = (ifText gap cond []).length := by
      rw [Form.taken,shape,ifTaken blank some_ closed,Option.getD_some]
    have head : f.head.text = ifText gap cond [] ++ after := by
      rw [here,Head.text,ifText,ifText]
      simp only [List.cons_append,List.append_assoc,List.nil_append]
    refine blankLeft ?_ ?_
    · rw [taken,head,List.length_append]
      exact Nat.le_add_right _ _
    · rw [Form.headLeft,taken,head,List.drop_left]
      exact behind
  · exact absurd exact not_false

theorem divMissed {f : Form} (div : f.op = .div) (plain : ¬ "\\=".toList <:+: f.assign) :
    ¬ f.Good := by
  intro good
  obtain ⟨part,known,inside⟩ := good.tested
  obtain ⟨operator,noSlash⟩ := testedPlain part known
  rcases operator with rfl | operator
  · exact plain inside
  · have shape : f.assign = (f.ident ++ f.suffix ++ f.gap) ++ '/' :: ('=' :: f.rest) := by
      rw [Form.assign,div]
      simp only [List.append_assoc]
      rfl
    rw [shape] at inside
    rcases infixSide noSlash.1 inside with before_ | after
    · exact f.plainLeft part operator before_
    · rcases List.infix_cons_iff.mp after with begins | later
      · obtain ⟨t,whole⟩ := begins
        cases chars : part.toList with
        | nil => exact noSlash.2.2 chars
        | cons c more =>
          rw [chars] at whole
          obtain ⟨rfl,_⟩ := List.cons.inj whole
          exact noSlash.2.1 (by rw [chars]; rfl)
      · exact f.plainRight part operator later

theorem elseMissed {f : Form} {gap : Text} (else_ : f.head = .else_ gap)
    (none_ : ifSearch f.text = none) : ¬ f.Good := by
  intro good
  have formed := f.formed
  rw [else_] at formed
  have named : Name "else".toList := ⟨⟨'e',rfl,rfl⟩,List.all_eq_true.mp rfl⟩
  have all : f.headLeft ++ f.ident = "else".toList ++ (gap ++ f.ident) := by
    rw [Form.headLeft,Form.taken,none_,Option.getD_none,List.drop_zero,else_,Head.text,
      List.append_assoc]
  have keyword : NamedFirst (f.headLeft ++ f.ident) "else".toList := by
    rw [all]
    refine ⟨[],gap ++ f.ident,rfl,nofun,fun c head => ?_⟩
    rw [List.head?_append_of_ne_nil _ formed.2] at head
    exact charBlank (formed.1 c (List.mem_of_mem_head? head))
  have both := ((firstNameIff f.named).mpr good.first).symm.trans ((firstNameIff named).mpr keyword)
  have inside : "else".toList ∈ keywords := by decide +kernel
  exact f.word (Except.ok.inj both ▸ inside)

theorem ifMissed {f : Form} {gap cond after : Text} (if_ : f.head = .if_ gap cond after)
    (closed : ')' ∈ f.rest) : ¬ f.Good := by
  intro good
  have formed := f.formed
  rw [if_] at formed
  obtain ⟨first,rest,split,last⟩ : ∃ first rest, f.rest = first ++ ')' :: rest ∧ ')' ∉ rest := by
    obtain ⟨rest,first,split,last⟩ := List.eq_append_cons_of_mem (List.mem_reverse.mpr closed)
    refine ⟨first.reverse,rest.reverse,?_,fun inside => last (List.mem_reverse.mp inside)⟩
    rw [← List.reverse_reverse f.rest,split]
    simp
  let body := cond ++ ')' :: (after ++ (f.ident ++ (f.suffix ++ (f.gap ++ (f.op.text.toList ++ first)))))
  have shape : f.text = 'i' :: 'f' :: (gap ++ '(' :: (body ++ ')' :: rest)) := by
    rw [Form.text,if_,Head.text,ifText,Form.assign,split]
    simp only [body,List.cons_append,List.append_assoc]
  have taken : f.taken = (ifText gap body []).length := by
    rw [Form.taken,shape,ifTaken formed.1 (by simp [body]) last,Option.getD_some]
  have within := good.within
  rw [taken,if_,Head.text] at within
  obtain ⟨c,head,_⟩ := f.named.1
  have some_ : 0 < f.ident.length := by
    refine List.length_pos_iff.mpr fun none_ => ?_
    rw [none_] at head
    cases head
  simp only [ifText,body,List.length_cons,List.length_append,List.length_nil] at within
  omega

/- x = y + (1); -/
def sumForm : Form where
  head := .none_
  ident := "x".toList
  suffix := []
  gap := []
  op := .set
  rest := "y + (1);".toList
  formed := trivial
  named := ⟨⟨'x',rfl,rfl⟩,List.all_eq_true.mp rfl⟩
  word := by decide +kernel
  ends := nofun
  blank := nofun
  plainLeft := by decide
  plainRight := by decide
  semicolon := rfl

theorem sumFormReturns : checkSrcVar "x = y + (1);\n".toList 1 = .ok (some "x".toList) ∧
    sumForm.Usual ∧ sumForm.Good := by
  have there : (lines "x = y + (1);\n".toList)[((1 : Int) - 1).toNat]? = some "x = y + (1);\n".toList := by
    decide +kernel
  have stripped : strip "x = y + (1);\n".toList = sumForm.text := by decide +kernel
  have none_ : ifSearch sumForm.text = none := by decide +kernel
  have good : sumForm.Good := exactGood (show sumForm.Exact from none_) (by decide)
  refine ⟨(returnsIff sumForm there stripped).1 good,⟨by decide +kernel,good.plain,?_⟩,good⟩
  intro k positive first
  have empty : sumForm.lhs.drop k = [] := List.drop_eq_nil_of_le positive
  obtain ⟨c,inside,_⟩ := namedStart sumForm.named first
  rw [empty] at inside
  cases inside

def elseForm : Form where
  __ := sumForm
  head := .else_ [' ']
  formed := ⟨fun c inside => by rw [List.mem_singleton.mp inside]; rfl,List.cons_ne_nil ' ' []⟩

theorem elseFormKeyword : ¬ ∀ (f : Form) (source line : Text) (lineInfo : Int),
    (lines source)[(lineInfo - 1).toNat]? = some line → strip line = f.text →
      checkSrcVar source lineInfo = .ok (some f.ident) := by
  intro all
  have returned := all elseForm "else x = y + (1);\n".toList "else x = y + (1);\n".toList 1
    (by decide +kernel) (by decide +kernel)
  have keyword : checkSrcVar "else x = y + (1);\n".toList 1 = .ok (some "else".toList) := by
    decide +kernel
  rw [keyword] at returned
  exact absurd (Option.some.inj (Except.ok.inj returned)) (by decide)

end Autonomizer.SrcVar
