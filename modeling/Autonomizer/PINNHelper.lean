import Mathlib
import Autonomizer.StoreInfo

/-! PINNHelper.py: the Dataset that is read back from a directory of data files. -/
namespace Autonomizer.PINNHelper
open Binary64 Data FileIO FileSystem Format PIInc

inductive ReadError where
  | valueError
  | indexError
  | stopIteration
  | ioError
  deriving DecidableEq, Repr

inductive Target where
  | dIn
  | dOut
  deriving DecidableEq, Repr

/- The arrays of one file, and how many numbers the iterator still owes to one of them. -/
structure Reading where
  dIn : List Fp
  dOut : List Fp
  inNmemb : Int
  target : Target
  left : Nat
  deriving DecidableEq

def loadMarker : Text := "NN-LOAD-DATA-NMEMB".toList
def storeMarker : Text := "NN-STORE-DATA-NMEMB".toList

/- int(line.split(':')[1]). -/
def announced (line : Text) : Except ReadError Int :=
  match (line.splitOn ':')[1]? with
  | none => .error .indexError
  | some field => match pyInt field with
    | some x => .ok x
    | none => .error .valueError

def Reading.append (r : Reading) (x : Fp) (left : Nat) : Reading :=
  match r.target with
  | .dIn => { r with dIn := r.dIn ++ [x], left }
  | .dOut => { r with dOut := r.dOut ++ [x], left }

/- One line: float(f.next()) while numbers are owed, else the body of the loop over
the file. -/
def readLine (r : Reading) (line : Text) : Except ReadError Reading :=
  match r.left with
  | left + 1 => match pyFloat line with
    | some x => .ok (r.append x left)
    | none => .error .valueError
  | 0 =>
    if loadMarker <:+: line then do
      let x ← announced line
      return { r with inNmemb := x, target := .dIn, left := x.toNat }
    else if storeMarker <:+: line then do
      let x ← announced line
      return { r with target := .dOut, left := x.toNat }
    else .ok r

def readLines (r : Reading) (ls : List Text) : Except ReadError Reading := ls.foldlM readLine r

/- A file that ends in the middle of a section lets f.next() raise. -/
def readFile (inNmemb : Int) (text : Text) : Except ReadError Reading := do
  let r ← readLines ⟨[],[],inNmemb,.dIn,0⟩ (lines text)
  if r.left ≠ 0 then throw .stopIteration
  return r

structure Dataset where
  dsIn : List (List Fp)
  dsOut : List (List Fp)
  dsSize : Nat
  inNmemb : Int
  outNmemb : Nat

def Dataset.read (fs : FS) (d : Dataset) (fName : Path) : Except ReadError Dataset :=
  match fs fName with
  | some (.file text) => do
    let r ← readFile d.inNmemb text
    let dsOut := d.dsOut ++ [r.dOut]
    return ⟨d.dsIn ++ [r.dIn],dsOut,d.dsSize + 1,r.inNmemb,(dsOut.headD []).length⟩
  | _ => .error .ioError

/- files is what os.walk finds, in its order. -/
def Dataset.init (fs : FS) (files : List Path) : Except ReadError Dataset :=
  files.foldlM (Dataset.read fs) ⟨[],[],0,-1,0⟩

/- Each file below dir once. -/
structure Walk (fs : FS) (dir : Path) (files : List Path) : Prop where
  once : files.Nodup
  below : ∀ path, path ∈ files ↔ (∃ rest, rest ≠ [] ∧ path = dir ++ rest) ∧ (fileText (fs path)).isSome

theorem readLinesAppend (r : Reading) (first second : List Text) :
    readLines r (first ++ second) = (readLines r first >>= fun mid => readLines mid second) :=
  List.foldlM_append ..

theorem readLinesCons (r : Reading) (l : Text) (ls : List Text) :
    readLines r (l :: ls) = (readLine r l >>= fun mid => readLines mid ls) :=
  List.foldlM_cons ..

/- r is base with more read before it; the rest of a reading does not depend on that. -/
structure Follows (dIn dOut : List Fp) (r base : Reading) : Prop where
  dIn : r.dIn = dIn ++ base.dIn
  dOut : r.dOut = dOut ++ base.dOut
  left : r.left = base.left
  target : base.left ≠ 0 → r.target = base.target

theorem readLineFollows {dIn dOut : List Fp} {r base : Reading} (follows : Follows dIn dOut r base)
    (l : Text) : (∃ e, readLine r l = .error e ∧ readLine base l = .error e) ∨
      ∃ next after, readLine r l = .ok next ∧ readLine base l = .ok after ∧
        Follows dIn dOut next after := by
  obtain ⟨allIn,allOut,inNmemb,target,left⟩ := r
  obtain ⟨own,out,other,fills,owed⟩ := base
  obtain ⟨hereIn,hereOut,owes,same⟩ := follows
  dsimp only at hereIn hereOut owes same
  subst hereIn hereOut owes
  cases left with
  | succ left =>
    cases same (Nat.succ_ne_zero left)
    simp only [readLine]
    cases pyFloat l with
    | none => exact .inl ⟨_,rfl,rfl⟩
    | some x =>
      cases target with
      | dIn => exact .inr ⟨_,_,rfl,rfl,List.append_assoc ..,rfl,rfl,fun _ => rfl⟩
      | dOut => exact .inr ⟨_,_,rfl,rfl,rfl,List.append_assoc ..,rfl,fun _ => rfl⟩
  | zero =>
    simp only [readLine]
    split
    · cases announced l with
      | error e => exact .inl ⟨e,rfl,rfl⟩
      | ok x => exact .inr ⟨_,_,rfl,rfl,rfl,rfl,rfl,fun _ => rfl⟩
    · split
      · cases announced l with
        | error e => exact .inl ⟨e,rfl,rfl⟩
        | ok x => exact .inr ⟨_,_,rfl,rfl,rfl,rfl,rfl,fun _ => rfl⟩
      · exact .inr ⟨_,_,rfl,rfl,rfl,rfl,rfl,fun none => absurd rfl none⟩

theorem readLinesFollows {dIn dOut : List Fp} {r base : Reading} (follows : Follows dIn dOut r base)
    (ls : List Text) : (∃ e, readLines r ls = .error e ∧ readLines base ls = .error e) ∨
      ∃ next after, readLines r ls = .ok next ∧ readLines base ls = .ok after ∧
        Follows dIn dOut next after := by
  induction ls generalizing r base with
  | nil => exact .inr ⟨r,base,rfl,rfl,follows⟩
  | cons l ls ih =>
    simp only [readLinesCons]
    rcases readLineFollows follows l with ⟨e,first,second⟩ | ⟨mid,after,first,second,still⟩
    · rw [first,second]
      exact .inl ⟨e,rfl,rfl⟩
    · rw [first,second]
      exact ih still

def Reading.weight (r : Reading) : Nat := r.dIn.length + r.dOut.length + r.left

theorem readLineWeight {r next : Reading} {l : Text} (read : readLine r l = .ok next) :
    r.weight ≤ next.weight ∧ (r.left ≠ 0 → next.weight = r.weight) ∧
      (∃ more, next.dIn = r.dIn ++ more) ∧ ∃ more, next.dOut = r.dOut ++ more := by
  obtain ⟨own,out,inNmemb,target,left⟩ := r
  cases left with
  | succ left =>
    simp only [readLine] at read
    split at read
    · next x _ =>
      cases target with
      | dIn =>
        cases read
        refine ⟨?_,fun _ => ?_,⟨[x],rfl⟩,⟨[],(List.append_nil _).symm⟩⟩ <;>
          (simp only [Reading.append,Reading.weight,List.length_append,List.length_singleton]; omega)
      | dOut =>
        cases read
        refine ⟨?_,fun _ => ?_,⟨[],(List.append_nil _).symm⟩,⟨[x],rfl⟩⟩ <;>
          (simp only [Reading.append,Reading.weight,List.length_append,List.length_singleton]; omega)
    · cases read
  | zero =>
    have same : (∃ more, own = own ++ more) ∧ ∃ more, out = out ++ more :=
      ⟨⟨[],(List.append_nil _).symm⟩,⟨[],(List.append_nil _).symm⟩⟩
    simp only [readLine] at read
    split at read
    · cases found : announced l with
      | error e => rw [found] at read; cases read
      | ok x =>
        rw [found] at read
        cases read
        exact ⟨Nat.add_le_add_left (Nat.zero_le _) _,fun none => absurd rfl none,same⟩
    · split at read
      · cases found : announced l with
        | error e => rw [found] at read; cases read
        | ok x =>
          rw [found] at read
          cases read
          exact ⟨Nat.add_le_add_left (Nat.zero_le _) _,fun none => absurd rfl none,same⟩
      · cases read
        exact ⟨le_rfl,fun _ => rfl,same⟩

theorem readLinesWeight {r next : Reading} {ls : List Text} (read : readLines r ls = .ok next) :
    r.weight ≤ next.weight ∧ (∃ more, next.dIn = r.dIn ++ more) ∧ ∃ more, next.dOut = r.dOut ++ more := by
  induction ls generalizing r with
  | nil =>
    cases read
    exact ⟨le_rfl,⟨[],(List.append_nil _).symm⟩,⟨[],(List.append_nil _).symm⟩⟩
  | cons l ls ih =>
    rw [readLinesCons] at read
    cases first : readLine r l with
    | error e => rw [first] at read; cases read
    | ok mid =>
      rw [first] at read
      obtain ⟨grows,_,⟨moreIn,atIn⟩,⟨moreOut,atOut⟩⟩ := readLineWeight first
      obtain ⟨later,⟨restIn,lastIn⟩,⟨restOut,lastOut⟩⟩ := ih read
      exact ⟨grows.trans later,⟨_,by rw [lastIn,atIn,List.append_assoc]⟩,
        ⟨_,by rw [lastOut,atOut,List.append_assoc]⟩⟩

def Target.nameKey : Target → String
  | .dIn => "NN-LOAD-DATA-NAME:"
  | .dOut => "NN-STORE-DATA-NAME:"

def Target.nmembKey : Target → String
  | .dIn => "NN-LOAD-DATA-NMEMB:"
  | .dOut => "NN-STORE-DATA-NMEMB:"

def sectionText (target : Target) (name : Text) (nmemb : Int) (values : List Scalar) : Text :=
  line target.nameKey name ++ line target.nmembKey (decimal nmemb) ++ valueLines values

def Harmless (target : Target) (name : Text) : Prop :=
  ∃ r, readLines ⟨[],[],-1,.dIn,0⟩ (lines (line target.nameKey name)) = .ok r ∧ r.weight = 0

def printed (v : Scalar) : Text := v.print ++ ['\n']

/- The value Python has after float() of a printed element. -/
def readBack (v : Scalar) : Fp := (pyFloat (printed v)).getD (.nan false)

theorem pyFloatAnyDecimal (n : Int) : (pyFloat (decimal n ++ ['\n'])).isSome := by
  obtain ⟨d,ds,digits,digit⟩ := digitsOf n.natAbs
  have shape : decimal n = signText (n < 0) ++ d :: ds := by
    unfold decimal signText
    rw [digits]
    by_cases negative : n < 0 <;> simp [negative]
  have plain : ∀ c ∈ ds, isSpace c = false := fun c inside =>
    digitPlain (digit c (List.mem_cons_of_mem _ inside))
  have none : (d :: ds).dropWhile Char.isDigit = [] := List.dropWhile_eq_nil_iff.mpr digit
  rw [shape,pyFloatSigned _ (digit d List.mem_cons_self) plain,
    scanFloatDigits _ (digit d List.mem_cons_self)]
  simp only [none,scanExponent]
  rfl

theorem readBackPrinted (v : Scalar) : pyFloat (printed v) = some (readBack v) := by
  have some_ : (pyFloat (printed v)).isSome := by
    cases v with
    | int n => exact pyFloatAnyDecimal n
    | float x => exact pyFloatPrinted x
  obtain ⟨x,found⟩ := Option.isSome_iff_exists.mp some_
  rw [readBack,found,Option.getD_some]

theorem printPlain (v : Scalar) : 'N' ∉ v.print ∧ '\n' ∉ v.print := by
  cases v with
  | int n => exact ⟨decimalAvoids ⟨by decide,by decide⟩ n,decimalAvoids ⟨by decide,by decide⟩ n⟩
  | float x =>
    cases x with
    | fin neg q =>
      obtain ⟨d,ds,digits,digit⟩ := digitsOf ((roundHalfEven (q * 10^6)).toNat / 10^6)
      have frac := sixDigits ((roundHalfEven (q * 10^6)).toNat % 10^6)
      have avoids : ∀ c, c ≠ '-' → c ≠ '.' → c.isDigit = false → c ∉ printF (.fin neg q) := by
        intro c dash dot other inside
        simp only [printF,digits,List.mem_append,List.mem_cons] at inside
        rcases inside with (sign | first) | point | fraction
        · cases neg with
          | false => cases sign
          | true => exact dash (List.mem_singleton.mp sign)
        · rw [digit c (List.mem_cons.mpr first)] at other
          cases other
        · exact dot point
        · rw [frac c fraction] at other
          cases other
      exact ⟨avoids _ (by decide) (by decide) (by decide),avoids _ (by decide) (by decide) (by decide)⟩
    | inf neg => cases neg <;> decide
    | nan neg => cases neg <;> decide

theorem linesValues (values : List Scalar) (rest : Text) :
    lines (valueLines values ++ rest) = values.map printed ++ lines rest := by
  induction values with
  | nil => rfl
  | cons v values ih =>
    have first : valueLines (v :: values) ++ rest = v.print ++ '\n' :: (valueLines values ++ rest) := by
      simp [valueLines]
    rw [first,linesCons (printPlain v).2,ih]
    rfl

theorem nmembLine (target : Target) (nmemb : Int) (rest : Text) :
    lines (line target.nmembKey (decimal nmemb) ++ rest) =
      line target.nmembKey (decimal nmemb) :: lines rest := by
  have whole : '\n' ∉ target.nmembKey.toList ++ decimal nmemb := by
    rw [List.mem_append,not_or]
    exact ⟨by cases target <;> decide,decimalAvoids ⟨by decide,by decide⟩ nmemb⟩
  have split := linesCons whole rest
  simpa [line] using split

theorem sectionLines (target : Target) (name : Text) (nmemb : Int) (values : List Scalar)
    (rest : Text) : lines (sectionText target name nmemb values ++ rest) =
      lines (line target.nameKey name) ++ line target.nmembKey (decimal nmemb) ::
        (values.map printed ++ lines rest) := by
  have split := linesAppend (target.nameKey.toList ++ name)
    (line target.nmembKey (decimal nmemb) ++ (valueLines values ++ rest))
  have whole : sectionText target name nmemb values ++ rest = (target.nameKey.toList ++ name) ++
      '\n' :: (line target.nmembKey (decimal nmemb) ++ (valueLines values ++ rest)) := by
    simp [sectionText,line]
  rw [whole,split,nmembLine,linesValues]
  rfl

theorem idleFollows {r : Reading} (idle : r.left = 0) :
    Follows r.dIn r.dOut r ⟨[],[],-1,.dIn,0⟩ :=
  ⟨(List.append_nil _).symm,(List.append_nil _).symm,idle,fun none => absurd rfl none⟩

theorem harmlessRead {target : Target} {name : Text} (harmless : Harmless target name) {r : Reading}
    (idle : r.left = 0) : ∃ next, readLines r (lines (line target.nameKey name)) = .ok next ∧
      next.left = 0 ∧ next.dIn = r.dIn ∧ next.dOut = r.dOut := by
  obtain ⟨base,read,nothing⟩ := harmless
  have empty : base.dIn = [] ∧ base.dOut = [] ∧ base.left = 0 := by
    simpa [Reading.weight,and_assoc] using nothing
  rcases readLinesFollows (idleFollows idle) (lines (line target.nameKey name)) with
    ⟨e,_,failed⟩ | ⟨next,after,done,same,follows⟩
  · rw [read] at failed; cases failed
  · rw [read] at same
    cases same
    refine ⟨next,done,follows.left.trans empty.2.2,?_,?_⟩
    · rw [follows.dIn,empty.1,List.append_nil]
    · rw [follows.dOut,empty.2.1,List.append_nil]

theorem harmlessOf {target : Target} {name : Text} {r next : Reading} (idle : r.left = 0)
    (read : readLines r (lines (line target.nameKey name)) = .ok next)
    (same : next.weight = r.weight) : Harmless target name := by
  rcases readLinesFollows (idleFollows idle) (lines (line target.nameKey name)) with
    ⟨e,failed,_⟩ | ⟨_,after,done,base,follows⟩
  · rw [read] at failed; cases failed
  · rw [read] at done
    cases done
    refine ⟨after,base,?_⟩
    rw [Reading.weight,follows.dIn,follows.dOut,follows.left,Reading.weight,idle,
      List.length_append,List.length_append] at same
    rw [Reading.weight]
    omega

theorem infixAfter {part before rest : Text} {c : Char} (ends : before.getLast? = some c)
    (absent : c ∉ part) (inside : part <:+: before ++ rest) : part <:+: before ∨ part <:+: rest := by
  rcases List.infix_append_iff.mp inside with left | right | ⟨l₁,l₂,rfl,suffix,start⟩
  · exact .inl left
  · exact .inr right
  · obtain ⟨front,rfl⟩ := suffix
    cases l₁ with
    | nil => exact .inr start.isInfix
    | cons d ds =>
      rw [List.getLast?_append_of_ne_nil _ (List.cons_ne_nil d ds)] at ends
      exact absurd (List.mem_append_left _ (List.mem_of_getLast? ends)) absent

theorem harmlessPlain {name : Text} (whole : '\n' ∉ name) (noLoad : ¬ loadMarker <:+: name)
    (noStore : ¬ storeMarker <:+: name) (target : Target) : Harmless target name := by
  have keyEnds : target.nameKey.toList.getLast? = some ':' := by cases target <;> decide
  have keyWhole : '\n' ∉ target.nameKey.toList := by cases target <;> decide
  have keyLoad : ¬ loadMarker <:+: target.nameKey.toList := by cases target <;> decide
  have keyStore : ¬ storeMarker <:+: target.nameKey.toList := by cases target <;> decide
  have one : lines (line target.nameKey name) = [line target.nameKey name] := by
    have inside : '\n' ∉ target.nameKey.toList ++ name := by
      rw [List.mem_append,not_or]
      exact ⟨keyWhole,whole⟩
    exact linesCons inside []
  have apart (marker : Text) (colon : ':' ∉ marker) (newline : '\n' ∉ marker)
      (some_ : marker ≠ []) (key : ¬ marker <:+: target.nameKey.toList)
      (word : ¬ marker <:+: name) : ¬ marker <:+: line target.nameKey name := by
    intro inside
    rw [line,List.append_assoc] at inside
    rcases infixAfter keyEnds colon inside with inKey | after
    · exact key inKey
    · have last := List.getLast?_eq_some_getLast some_
      refine word ((StoreInfo.infixBefore last ?_).mp after)
      intro same
      exact newline (List.mem_singleton.mp same ▸ List.mem_of_getLast? last)
  have noLoad' := apart loadMarker (by decide) (by decide) (by decide) keyLoad noLoad
  have noStore' := apart storeMarker (by decide) (by decide) (by decide) keyStore noStore
  refine ⟨⟨[],[],-1,.dIn,0⟩,?_,rfl⟩
  rw [one,readLinesCons]
  simp only [readLine,if_neg noLoad',if_neg noStore']
  rfl

theorem announcedNmemb (target : Target) (nmemb : Int) :
    announced (line target.nmembKey (decimal nmemb)) = .ok nmemb := by
  have noColon : ':' ∉ decimal nmemb ++ ['\n'] := by
    rw [List.mem_append,not_or]
    exact ⟨decimalAvoids ⟨by decide,by decide⟩ nmemb,by decide⟩
  have key : ∃ word, ':' ∉ word ∧ target.nmembKey.toList = word ++ [':'] := by
    cases target with
    | dIn => exact ⟨loadMarker,by decide,by decide⟩
    | dOut => exact ⟨storeMarker,by decide,by decide⟩
  obtain ⟨word,plain,shape⟩ := key
  have split : (line target.nmembKey (decimal nmemb)).splitOn ':' = [word,decimal nmemb ++ ['\n']] := by
    rw [line,shape,List.append_assoc,List.append_assoc,List.singleton_append,
      List.splitOn_append_cons_self_of_not_mem plain,List.splitOn_eq_singleton noColon]
  rw [announced,split]
  simp only [List.getElem?_cons_succ,List.getElem?_cons_zero,pyIntDecimal]

theorem markerBefore {marker : Text} (last : marker.getLast? = some 'B') (target : Target)
    (nmemb : Int) : marker <:+: line target.nmembKey (decimal nmemb) ↔
      marker <:+: target.nmembKey.toList := by
  rw [line,List.append_assoc]
  refine StoreInfo.infixBefore last ?_
  rw [List.mem_append,not_or]
  exact ⟨decimalAvoids ⟨by decide,by decide⟩ nmemb,by decide⟩

def Reading.announce (r : Reading) (target : Target) (x : Int) : Reading :=
  match target with
  | .dIn => { r with inNmemb := x, target, left := x.toNat }
  | .dOut => { r with target, left := x.toNat }

theorem nmembRead {r : Reading} (idle : r.left = 0) (target : Target) (nmemb : Int) :
    readLine r (line target.nmembKey (decimal nmemb)) = .ok (r.announce target nmemb) := by
  obtain ⟨dIn,dOut,inNmemb,fills,left⟩ := r
  cases idle
  cases target with
  | dIn =>
    have marked : loadMarker <:+: line Target.dIn.nmembKey (decimal nmemb) :=
      (markerBefore (by decide) .dIn nmemb).mpr (by decide)
    simp only [readLine,if_pos marked,announcedNmemb]
    rfl
  | dOut =>
    have other : ¬ loadMarker <:+: line Target.dOut.nmembKey (decimal nmemb) :=
      fun inside => absurd ((markerBefore (by decide) .dOut nmemb).mp inside) (by decide)
    have marked : storeMarker <:+: line Target.dOut.nmembKey (decimal nmemb) :=
      (markerBefore (by decide) .dOut nmemb).mpr (by decide)
    simp only [readLine,if_neg other,if_pos marked,announcedNmemb]
    rfl

theorem nmembNoFloat (target : Target) (nmemb : Int) :
    pyFloat (line target.nmembKey (decimal nmemb)) = none := by
  have digit : ∀ c ∈ decimal nmemb, isSpace c = false := by
    intro c inside
    rcases decimalChar inside with rfl | digit
    · rfl
    · exact digitPlain digit
  have keys : target.nmembKey.toList.all (fun c => !isSpace c) = true := by
    cases target <;> decide
  have plain : ∀ c ∈ target.nmembKey.toList ++ decimal nmemb, isSpace c = false := by
    intro c inside
    rcases List.mem_append.mp inside with key | value
    · simpa using List.all_eq_true.mp keys c key
    · exact digit c value
  have begins : ∃ rest, target.nmembKey.toList = 'N' :: 'N' :: rest := by
    cases target <;> exact ⟨_,rfl⟩
  obtain ⟨rest,shape⟩ := begins
  rw [pyFloat,line,stripLine plain,shape]
  rfl

theorem nmembOwed {r : Reading} (owes : r.left ≠ 0) (target : Target) (nmemb : Int) :
    readLine r (line target.nmembKey (decimal nmemb)) = .error .valueError := by
  obtain ⟨left,same⟩ := Nat.exists_eq_succ_of_ne_zero owes
  simp only [readLine,same,nmembNoFloat]

def Reading.fill (r : Reading) (xs : List Fp) : Reading :=
  match r.target with
  | .dIn => { r with dIn := r.dIn ++ xs, left := r.left - xs.length }
  | .dOut => { r with dOut := r.dOut ++ xs, left := r.left - xs.length }

theorem fillNone (r : Reading) : r.fill [] = r := by
  obtain ⟨_,_,_,target,_⟩ := r
  cases target <;> simp [Reading.fill]

theorem valuesRead {r : Reading} {values : List Scalar} (room : values.length ≤ r.left) :
    readLines r (values.map printed) = .ok (r.fill (values.map readBack)) := by
  induction values generalizing r with
  | nil => rw [List.map_nil,List.map_nil,fillNone]; rfl
  | cons v values ih =>
    obtain ⟨left,same⟩ := Nat.exists_eq_succ_of_ne_zero (show r.left ≠ 0 by
      rw [List.length_cons] at room; omega)
    have step : readLine r (printed v) = .ok (r.append (readBack v) left) := by
      simp only [readLine,same,readBackPrinted]
    have less : (r.append (readBack v) left).left = left := by
      unfold Reading.append
      split <;> rfl
    rw [List.map_cons,readLinesCons,step]
    have rest := ih (r := r.append (readBack v) left) (by
      rw [less]
      rw [List.length_cons] at room
      omega)
    refine Eq.trans rest (congrArg _ ?_)
    obtain ⟨dIn,dOut,inNmemb,target,owed⟩ := r
    cases same
    cases target <;>
      simp only [Reading.append,Reading.fill,List.length_cons,List.length_map,List.map_cons,
        List.append_assoc,List.singleton_append,Nat.succ_sub_succ_eq_sub]

theorem valuesSkipped {r : Reading} (idle : r.left = 0) (values : List Scalar) :
    readLines r (values.map printed) = .ok r := by
  induction values with
  | nil => rfl
  | cons v values ih =>
    have noMarker {marker : Text} (first : 'N' ∈ marker) : ¬ marker <:+: printed v := by
      intro inside
      have found := inside.subset first
      rcases List.mem_append.mp found with printed | newline
      · exact (printPlain v).1 printed
      · exact absurd newline (by decide)
    have step : readLine r (printed v) = .ok r := by
      have noLoad : ¬ loadMarker <:+: printed v := noMarker (by decide)
      have noStore : ¬ storeMarker <:+: printed v := noMarker (by decide)
      simp only [readLine,idle,if_neg noLoad,if_neg noStore]
    rw [List.map_cons,readLinesCons,step]
    exact ih

def Target.inputs (target : Target) (xs : List Fp) : List Fp := if target = .dIn then xs else []
def Target.outputs (target : Target) (xs : List Fp) : List Fp := if target = .dOut then xs else []

theorem bodyRead {r : Reading} (target : Target) {nmemb : Int} {values : List Scalar}
    (idle : r.left = 0) (enough : nmemb.toNat ≤ values.length) :
    ∃ next, readLines r (line target.nmembKey (decimal nmemb) :: values.map printed) = .ok next ∧
      next.left = 0 ∧
      next.dIn = r.dIn ++ target.inputs ((values.take nmemb.toNat).map readBack) ∧
      next.dOut = r.dOut ++ target.outputs ((values.take nmemb.toNat).map readBack) := by
  have length : (values.take nmemb.toNat).length = nmemb.toNat := List.length_take_of_le enough
  have owed : (r.announce target nmemb).left = nmemb.toNat := by
    unfold Reading.announce
    split <;> rfl
  have room : (values.take nmemb.toNat).length ≤ (r.announce target nmemb).left := by
    rw [owed,length]
  have filled := valuesRead room
  have nothing : ((r.announce target nmemb).fill ((values.take nmemb.toNat).map readBack)).left = 0 := by
    unfold Reading.fill
    split <;> exact (by rw [owed,List.length_map,length]; exact Nat.sub_self _)
  refine ⟨_,?_,nothing,?_,?_⟩
  · rw [readLinesCons,nmembRead idle]
    conv => lhs; rw [← List.take_append_drop nmemb.toNat values]
    show readLines (r.announce target nmemb) _ = _
    rw [List.map_append,readLinesAppend,filled]
    exact valuesSkipped nothing _
  · cases target with
    | dIn => rfl
    | dOut => exact (List.append_nil _).symm
  · cases target with
    | dIn => exact (List.append_nil _).symm
    | dOut => rfl

theorem sectionRead {r : Reading} {target : Target} {name : Text} {nmemb : Int}
    {values : List Scalar} (idle : r.left = 0) (harmless : Harmless target name)
    (enough : nmemb.toNat ≤ values.length) (rest : Text) :
    ∃ next, readLines r (lines (sectionText target name nmemb values ++ rest)) =
        readLines next (lines rest) ∧ next.left = 0 ∧
      next.dIn = r.dIn ++ target.inputs ((values.take nmemb.toNat).map readBack) ∧
      next.dOut = r.dOut ++ target.outputs ((values.take nmemb.toNat).map readBack) := by
  obtain ⟨mid,named,still,sameIn,sameOut⟩ := harmlessRead harmless idle
  obtain ⟨next,body,done,atIn,atOut⟩ := bodyRead target still enough
  refine ⟨next,?_,done,sameIn ▸ atIn,sameOut ▸ atOut⟩
  rw [sectionLines,readLinesAppend,named]
  show readLines mid _ = _
  rw [← List.cons_append,readLinesAppend,body]
  rfl

/- Whatever the lines of a name do, a section that is read adds its length at least, and
exactly its length only when they do nothing. -/
theorem sectionWeight {r last : Reading} {target : Target} {name : Text} {nmemb : Int}
    {values : List Scalar} (idle : r.left = 0) (enough : nmemb.toNat ≤ values.length) (rest : Text)
    (read : readLines r (lines (sectionText target name nmemb values ++ rest)) = .ok last) :
    ∃ next, readLines next (lines rest) = .ok last ∧ next.left = 0 ∧
      r.weight + nmemb.toNat ≤ next.weight ∧
      (next.weight = r.weight + nmemb.toNat → Harmless target name) := by
  rw [sectionLines,readLinesAppend] at read
  cases named : readLines r (lines (line target.nameKey name)) with
  | error e => rw [named] at read; cases read
  | ok mid =>
    rw [named] at read
    replace read : readLines mid (line target.nmembKey (decimal nmemb) ::
      (values.map printed ++ lines rest)) = .ok last := read
    have still : mid.left = 0 := by
      by_contra owes
      rw [readLinesCons,nmembOwed owes] at read
      cases read
    obtain ⟨next,body,done,atIn,atOut⟩ := bodyRead target still enough
    rw [← List.cons_append,readLinesAppend,body] at read
    have grows := (readLinesWeight named).1
    have length : ((values.take nmemb.toNat).map readBack).length = nmemb.toNat := by
      rw [List.length_map,List.length_take_of_le enough]
    have adds : next.weight = mid.weight + nmemb.toNat := by
      rw [Reading.weight,Reading.weight,atIn,atOut,done,still,List.length_append,List.length_append]
      cases target with
      | dIn =>
        rw [Target.inputs,if_pos rfl,Target.outputs,if_neg (by decide),length,List.length_nil]
        omega
      | dOut =>
        rw [Target.inputs,if_neg (by decide),Target.outputs,if_pos rfl,length,List.length_nil]
        omega
    refine ⟨next,read,done,by omega,fun exact_ => ?_⟩
    exact harmlessOf idle named (by omega)

/- A section of a data file; a store's may hold more values than it announces. -/
structure Part where
  target : Target
  name : Text
  nmemb : Int
  values : List Scalar

def Part.text (p : Part) : Text := sectionText p.target p.name p.nmemb p.values
def Part.numbers (p : Part) : List Fp := (p.values.take p.nmemb.toNat).map readBack
def Part.enough (p : Part) : Prop := p.nmemb.toNat ≤ p.values.length
def Part.harmless (p : Part) : Prop := Harmless p.target p.name

theorem partsRead {r : Reading} {parts : List Part} (idle : r.left = 0)
    (harmless : ∀ p ∈ parts, p.harmless) (enough : ∀ p ∈ parts, p.enough) :
    ∃ next, readLines r (lines (parts.flatMap Part.text)) = .ok next ∧ next.left = 0 ∧
      next.dIn = r.dIn ++ parts.flatMap (fun p => p.target.inputs p.numbers) ∧
      next.dOut = r.dOut ++ parts.flatMap (fun p => p.target.outputs p.numbers) := by
  induction parts generalizing r with
  | nil => exact ⟨r,rfl,idle,(List.append_nil _).symm,(List.append_nil _).symm⟩
  | cons p parts ih =>
    obtain ⟨mid,same,still,atIn,atOut⟩ := sectionRead idle (harmless p List.mem_cons_self)
      (enough p List.mem_cons_self) (parts.flatMap Part.text)
    obtain ⟨next,read,done,lastIn,lastOut⟩ := ih still
      (fun q member => harmless q (List.mem_cons_of_mem _ member))
      (fun q member => enough q (List.mem_cons_of_mem _ member))
    refine ⟨next,?_,done,?_,?_⟩
    · rw [List.flatMap_cons]
      exact same.trans read
    · rw [lastIn,atIn,List.append_assoc,List.flatMap_cons]
      rfl
    · rw [lastOut,atOut,List.append_assoc,List.flatMap_cons]
      rfl

theorem partsWeight {r last : Reading} {parts : List Part} (idle : r.left = 0)
    (enough : ∀ p ∈ parts, p.enough)
    (read : readLines r (lines (parts.flatMap Part.text)) = .ok last) :
    last.left = 0 ∧ r.weight + (parts.map (fun p => p.nmemb.toNat)).sum ≤ last.weight ∧
      (last.weight = r.weight + (parts.map (fun p => p.nmemb.toNat)).sum →
        ∀ p ∈ parts, p.harmless) := by
  induction parts generalizing r with
  | nil =>
    cases read
    exact ⟨idle,le_rfl,fun _ p member => absurd member List.not_mem_nil⟩
  | cons p parts ih =>
    rw [List.flatMap_cons] at read
    obtain ⟨mid,rest,still,adds,exact_⟩ := sectionWeight idle (enough p List.mem_cons_self) _ read
    obtain ⟨done,more,all⟩ := ih still
      (fun q member => enough q (List.mem_cons_of_mem _ member)) rest
    rw [List.map_cons,List.sum_cons]
    refine ⟨done,by omega,fun total q member => ?_⟩
    rcases List.mem_cons.mp member with rfl | later
    · exact exact_ (by omega)
    · exact all (by omega) q later

theorem partsFile {parts : List Part} (harmless : ∀ p ∈ parts, p.harmless)
    (enough : ∀ p ∈ parts, p.enough) (inNmemb : Int) :
    ∃ r, readFile inNmemb (parts.flatMap Part.text) = .ok r ∧
      r.dIn = parts.flatMap (fun p => p.target.inputs p.numbers) ∧
      r.dOut = parts.flatMap (fun p => p.target.outputs p.numbers) := by
  have begins : (⟨[],[],inNmemb,.dIn,0⟩ : Reading).left = 0 := rfl
  obtain ⟨r,read,done,rowIn,rowOut⟩ := partsRead begins harmless enough
  refine ⟨r,?_,rowIn,rowOut⟩
  rw [readFile,read]
  simp only [bind,Except.bind,done,ne_eq,not_true,if_false,pure,Except.pure]

theorem fileParts {parts : List Part} {inNmemb : Int} {r : Reading}
    (enough : ∀ p ∈ parts, p.enough) (read : readFile inNmemb (parts.flatMap Part.text) = .ok r) :
    (parts.map (fun p => p.nmemb.toNat)).sum ≤ r.dIn.length + r.dOut.length ∧
      (r.dIn.length + r.dOut.length = (parts.map (fun p => p.nmemb.toNat)).sum →
        ∀ p ∈ parts, p.harmless) := by
  have begins : (⟨[],[],inNmemb,.dIn,0⟩ : Reading).left = 0 := rfl
  rw [readFile] at read
  cases whole : readLines ⟨[],[],inNmemb,.dIn,0⟩ (lines (parts.flatMap Part.text)) with
  | error e => rw [whole] at read; cases read
  | ok last =>
    obtain ⟨done,adds,exact_⟩ := partsWeight begins enough whole
    rw [whole] at read
    simp only [bind,Except.bind,done,ne_eq,not_true,if_false,pure,Except.pure] at read
    cases read
    have total : r.weight = r.dIn.length + r.dOut.length := by rw [Reading.weight,done,Nat.add_zero]
    have zero : Reading.weight ⟨[],[],inNmemb,.dIn,0⟩ = 0 := rfl
    rw [zero,Nat.zero_add,total] at adds exact_
    exact ⟨adds,exact_⟩

theorem readFileAny {first : Int} (second : Int) {text : Text} {r : Reading}
    (read : readFile first text = .ok r) : ∃ other, readFile second text = .ok other ∧
      other.dIn = r.dIn ∧ other.dOut = r.dOut := by
  have begins : Follows [] [] ⟨[],[],first,.dIn,0⟩ ⟨[],[],second,.dIn,0⟩ :=
    ⟨rfl,rfl,rfl,fun _ => rfl⟩
  unfold readFile at read ⊢
  rcases readLinesFollows begins (lines text) with ⟨e,failed,_⟩ | ⟨next,after,done,same,follows⟩
  · rw [failed] at read; cases read
  · rw [done] at read
    rw [same]
    by_cases whole : next.left = 0
    · have also : after.left = 0 := follows.left.symm.trans whole
      simp only [bind,Except.bind,whole,ne_eq,not_true,if_false,pure,Except.pure] at read
      cases read
      refine ⟨after,?_,follows.dIn.symm,follows.dOut.symm⟩
      simp only [bind,Except.bind,also,ne_eq,not_true,if_false,pure,Except.pure]
    · simp only [bind,Except.bind,whole,ne_eq,not_false_eq_true,if_true] at read
      cases read

def Reads (fs : FS) (path : Path) (row : List Fp × List Fp) : Prop :=
  ∃ text r, fs path = some (.file text) ∧ readFile (-1) text = .ok r ∧ (r.dIn,r.dOut) = row

theorem datasetRead {fs : FS} {d : Dataset} {files : List Path} {rows : List (List Fp × List Fp)}
    (reads : List.Forall₂ (Reads fs) files rows) : ∃ ds, files.foldlM (Dataset.read fs) d = .ok ds ∧
      ds.dsIn = d.dsIn ++ rows.map Prod.fst ∧ ds.dsOut = d.dsOut ++ rows.map Prod.snd := by
  induction reads generalizing d with
  | nil => exact ⟨d,rfl,(List.append_nil _).symm,(List.append_nil _).symm⟩
  | @cons path row files rows first _ ih =>
    obtain ⟨text,r,found,read,arrays⟩ := first
    obtain ⟨other,also,sameIn,sameOut⟩ := readFileAny d.inNmemb read
    have step : Dataset.read fs d path = .ok ⟨d.dsIn ++ [other.dIn],d.dsOut ++ [other.dOut],
        d.dsSize + 1,other.inNmemb,((d.dsOut ++ [other.dOut]).headD []).length⟩ := by
      simp only [Dataset.read,found,also,bind,Except.bind,pure,Except.pure]
    obtain ⟨ds,done,rowsIn,rowsOut⟩ := ih (d := ⟨d.dsIn ++ [other.dIn],d.dsOut ++ [other.dOut],
      d.dsSize + 1,other.inNmemb,((d.dsOut ++ [other.dOut]).headD []).length⟩)
    refine ⟨ds,by rw [List.foldlM_cons,step]; exact done,?_,?_⟩
    · rw [rowsIn,sameIn,← arrays,List.append_assoc]
      rfl
    · rw [rowsOut,sameOut,← arrays,List.append_assoc]
      rfl

theorem datasetRows {fs : FS} {d ds : Dataset} {files : List Path}
    (read : files.foldlM (Dataset.read fs) d = .ok ds) : ∃ rows, List.Forall₂ (Reads fs) files rows ∧
      ds.dsIn = d.dsIn ++ rows.map Prod.fst ∧ ds.dsOut = d.dsOut ++ rows.map Prod.snd := by
  induction files generalizing d with
  | nil =>
    cases read
    exact ⟨[],.nil,(List.append_nil _).symm,(List.append_nil _).symm⟩
  | cons path files ih =>
    rw [List.foldlM_cons] at read
    cases first : Dataset.read fs d path with
    | error e => rw [first] at read; cases read
    | ok mid =>
      rw [first] at read
      obtain ⟨rows,reads,rowsIn,rowsOut⟩ := ih read
      unfold Dataset.read at first
      split at first
      · next text found =>
        cases file : readFile d.inNmemb text with
        | error e => rw [file] at first; cases first
        | ok r =>
          rw [file] at first
          cases first
          obtain ⟨other,also,sameIn,sameOut⟩ := readFileAny (-1) file
          refine ⟨(r.dIn,r.dOut) :: rows,.cons ⟨text,other,found,also,?_⟩ reads,?_,?_⟩
          · rw [sameIn,sameOut]
          · rw [rowsIn,List.append_assoc]
            rfl
          · rw [rowsOut,List.append_assoc]
            rfl
      · cases first

section
variable {α β : Type} {R : α → β → Prop} {xs : List α} {ys : List β}

theorem rowsOf (all : ∀ x ∈ xs, ∃ y, R x y) : ∃ ys, List.Forall₂ R xs ys := by
  induction xs with
  | nil => exact ⟨[],.nil⟩
  | cons x xs ih =>
    obtain ⟨y,own⟩ := all x List.mem_cons_self
    obtain ⟨ys,rest⟩ := ih fun z inside => all z (List.mem_cons_of_mem x inside)
    exact ⟨y :: ys,.cons own rest⟩

theorem rowOf (rows : List.Forall₂ R xs ys) {x : α} (inside : x ∈ xs) : ∃ y ∈ ys, R x y := by
  obtain ⟨i,bound,rfl⟩ := List.getElem_of_mem inside
  exact ⟨ys.get ⟨i,rows.length_eq ▸ bound⟩,List.get_mem ..,rows.get bound (rows.length_eq ▸ bound)⟩

theorem fileOf (rows : List.Forall₂ R xs ys) {y : β} (inside : y ∈ ys) : ∃ x ∈ xs, R x y := by
  obtain ⟨i,bound,rfl⟩ := List.getElem_of_mem inside
  exact ⟨xs.get ⟨i,rows.length_eq ▸ bound⟩,List.get_mem ..,rows.get (rows.length_eq ▸ bound) bound⟩

end

theorem datasetInit {fs : FS} {files : List Path} {P : Path → List Fp × List Fp → Prop}
    (all : ∀ path ∈ files, ∃ row, Reads fs path row ∧ P path row) :
    ∃ ds rows, Dataset.init fs files = .ok ds ∧ List.Forall₂ P files rows ∧
      ds.dsIn = rows.map Prod.fst ∧ ds.dsOut = rows.map Prod.snd := by
  obtain ⟨rows,each⟩ := rowsOf all
  obtain ⟨ds,done,rowsIn,rowsOut⟩ := datasetRead (d := ⟨[],[],0,-1,0⟩)
    (each.imp fun _ _ both => both.1)
  exact ⟨ds,rows,done,each.imp fun _ _ both => both.2,rowsIn,rowsOut⟩

end Autonomizer.PINNHelper
