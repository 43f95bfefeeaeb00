import Mathlib
import Autonomizer.StoreInfo

/-! Reading store information twice: what a map already has changes nothing in it, and
what a larger map has can be read into any part of it, in any order. -/
namespace Autonomizer.Reread
open Data FileIO FileSystem Format PIInc StoreInfo

inductive Entry where
  | name (stName : Text)
  | type (tID : TypeID)
  | nmemb (nmemb : Int)
  deriving DecidableEq

def parse (s : Text) : Except Stop Entry :=
  if contains "NAME:" s then
    if afterColon s = [] then .error .undefined else .ok (.name (afterColon s).dropLast)
  else if contains "TYPE:" s then do
    let tID ← castTypeID (← stoiOrThrow (afterColon s))
    return .type tID
  else if contains "NMEMB:" s then do
    let nmemb ← stoiOrThrow (afterColon s)
    return .nmemb nmemb
  else .error (.assertion "Unknown store information")

def take (r : Reader) : Entry → Except Stop Reader
  | .name stName =>
      .ok ⟨if (r.storeMap stName).isNone then Function.update r.storeMap stName (some unset)
        else r.storeMap,some stName⟩
  | .type tID => do
      let (name,pDC) ← r.entry
      if pDC.tID = .none then
        return ⟨Function.update r.storeMap name (some { pDC with tID }),r.pDC⟩
      else if pDC.tID ≠ tID then throw (.assertion "Type ID mismatch with existing store")
      else return r
  | .nmemb nmemb => do
      let (name,pDC) ← r.entry
      if pDC.nmemb = -1 then
        return ⟨Function.update r.storeMap name (some { pDC with nmemb }),none⟩
      else if pDC.nmemb ≠ nmemb then throw (.assertion "nmemb mismatch with existing store")
      else return ⟨r.storeMap,none⟩

theorem readLineParse (r : Reader) (s : Text) : readLine r s = parse s >>= take r := by
  unfold readLine parse
  split
  · split <;> rfl
  · split
    · cases stoiOrThrow (afterColon s) with
      | error e => rfl
      | ok n =>
        simp only [bind,Except.bind]
        cases castTypeID n with
        | error e => rfl
        | ok tID => rfl
    · split
      · cases stoiOrThrow (afterColon s) with
        | error e => rfl
        | ok n => rfl
      · rfl

def Unset (s : Text) : Prop := parse s = .ok (.type .none) ∨ parse s = .ok (.nmemb (-1))

/- Every entry of the first map is in the second, with what it has of a type and a length. -/
def Extends (first second : StoreMap) : Prop :=
  ∀ name pDC, first name = some pDC → ∃ other, second name = some other ∧
    (pDC.tID ≠ .none → other.tID = pDC.tID) ∧ (pDC.nmemb ≠ -1 → other.nmemb = pDC.nmemb)

theorem extendsRefl (map : StoreMap) : Extends map map :=
  fun _ pDC found => ⟨pDC,found,fun _ => rfl,fun _ => rfl⟩

theorem extendsNone (map : StoreMap) : Extends (fun _ => none) map := nofun

theorem extendsTrans {a b c : StoreMap} (first : Extends a b) (second : Extends b c) : Extends a c := by
  intro name pDC found
  obtain ⟨mid,here,type,nmemb⟩ := first name pDC found
  obtain ⟨last,there,type',nmemb'⟩ := second name mid here
  refine ⟨last,there,fun some_ => ?_,fun some_ => ?_⟩
  · rw [type' (by rwa [type some_]),type some_]
  · rw [nmemb' (by rwa [nmemb some_]),nmemb some_]

theorem extendsUpdate {map : StoreMap} {name : Text} {pDC : DataContext}
    (more : ∀ old, map name = some old →
      (old.tID ≠ .none → pDC.tID = old.tID) ∧ (old.nmemb ≠ -1 → pDC.nmemb = old.nmemb)) :
    Extends map (Function.update map name (some pDC)) := by
  intro other old found
  by_cases same : other = name
  · subst same
    exact ⟨pDC,Function.update_self ..,more old found⟩
  · exact ⟨old,by rw [Function.update_of_ne same,found],fun _ => rfl,fun _ => rfl⟩

theorem updateExtends {map larger : StoreMap} (extends_ : Extends map larger) {name : Text}
    {pDC : DataContext} (there : ∃ other, larger name = some other ∧
      (pDC.tID ≠ .none → other.tID = pDC.tID) ∧ (pDC.nmemb ≠ -1 → other.nmemb = pDC.nmemb)) :
    Extends (Function.update map name (some pDC)) larger := by
  intro other old found
  by_cases same : other = name
  · subst same
    rw [Function.update_self] at found
    cases found
    exact there
  · rw [Function.update_of_ne same] at found
    exact extends_ other old found

section
variable {r next : Reader} {a : Entry}

theorem entryFound {name : Text} {pDC : DataContext} (entry : r.entry = .ok (name,pDC)) :
    r.pDC = some name ∧ r.storeMap name = some pDC := by
  unfold Reader.entry at entry
  split at entry
  · cases entry
  · next here =>
    split at entry
    · next found =>
      cases entry
      exact ⟨here,found⟩
    · cases entry

theorem foundEntry {map : StoreMap} {name : Text} {pDC : DataContext} (found : map name = some pDC) :
    Reader.entry ⟨map,some name⟩ = .ok (name,pDC) := by
  simp only [Reader.entry,found]

theorem takeCases (taken : take r a = .ok next) :
    (∃ name, a = .name name ∧ next.pDC = some name ∧ (next.storeMap name).isSome ∧
      (next.storeMap = r.storeMap ∨
        (r.storeMap name = none ∧ next.storeMap = Function.update r.storeMap name (some unset)))) ∨
    (∃ tID name pDC, a = .type tID ∧ r.pDC = some name ∧ r.storeMap name = some pDC ∧ next.pDC = r.pDC ∧
      ((pDC.tID = .none ∧ next.storeMap = Function.update r.storeMap name (some { pDC with tID })) ∨
        (pDC.tID = tID ∧ next.storeMap = r.storeMap))) ∨
    (∃ nmemb name pDC, a = .nmemb nmemb ∧ r.pDC = some name ∧ r.storeMap name = some pDC ∧ next.pDC = none ∧
      ((pDC.nmemb = -1 ∧ next.storeMap = Function.update r.storeMap name (some { pDC with nmemb })) ∨
        (pDC.nmemb = nmemb ∧ next.storeMap = r.storeMap))) := by
  cases a with
  | name name =>
    refine .inl ⟨name,rfl,?_⟩
    cases taken
    cases found : r.storeMap name with
    | none => simp
    | some pDC => simp [found]
  | type tID =>
    cases entry : r.entry with
    | error e => rw [take,entry] at taken; cases taken
    | ok pair =>
      obtain ⟨name,pDC⟩ := pair
      obtain ⟨here,found⟩ := entryFound entry
      refine .inr (.inl ⟨tID,name,pDC,rfl,here,found,?_⟩)
      rw [take,entry] at taken
      simp only [bind,Except.bind,pure,Except.pure] at taken
      split at taken
      · next none_ => cases taken; exact ⟨rfl,.inl ⟨none_,rfl⟩⟩
      · split at taken
        · cases taken
        · next same => cases taken; exact ⟨rfl,.inr ⟨not_not.mp same,rfl⟩⟩
  | nmemb nmemb =>
    cases entry : r.entry with
    | error e => rw [take,entry] at taken; cases taken
    | ok pair =>
      obtain ⟨name,pDC⟩ := pair
      obtain ⟨here,found⟩ := entryFound entry
      refine .inr (.inr ⟨nmemb,name,pDC,rfl,here,found,?_⟩)
      rw [take,entry] at taken
      simp only [bind,Except.bind,pure,Except.pure] at taken
      split at taken
      · next none_ => cases taken; exact ⟨rfl,.inl ⟨none_,rfl⟩⟩
      · split at taken
        · cases taken
        · next same => cases taken; exact ⟨rfl,.inr ⟨not_not.mp same,rfl⟩⟩

theorem takeGrows (taken : take r a = .ok next) : Extends r.storeMap next.storeMap := by
  rcases takeCases taken with ⟨name,_,_,_,same | ⟨none_,same⟩⟩ |
    ⟨tID,name,pDC,_,_,found,_,⟨none_,same⟩ | ⟨_,same⟩⟩ | ⟨nmemb,name,pDC,_,_,found,_,⟨none_,same⟩ | ⟨_,same⟩⟩
  · exact same ▸ extendsRefl _
  · rw [same]
    refine extendsUpdate fun old found => ?_
    rw [none_] at found
    cases found
  · rw [same]
    refine extendsUpdate fun old there => ?_
    cases found.symm.trans there
    exact ⟨fun some_ => absurd none_ some_,fun _ => rfl⟩
  · exact same ▸ extendsRefl _
  · rw [same]
    refine extendsUpdate fun old there => ?_
    cases found.symm.trans there
    exact ⟨fun _ => rfl,fun some_ => absurd none_ some_⟩
  · exact same ▸ extendsRefl _

theorem takeAbsorbed (taken : take r a = .ok next) (set : a ≠ .type .none ∧ a ≠ .nmemb (-1))
    {larger : StoreMap} (has : Extends next.storeMap larger) :
    take ⟨larger,r.pDC⟩ a = .ok ⟨larger,next.pDC⟩ := by
  rcases takeCases taken with ⟨name,rfl,here,some_,_⟩ |
    ⟨tID,name,pDC,rfl,here,found,kept,made⟩ | ⟨nmemb,name,pDC,rfl,here,found,kept,made⟩
  · obtain ⟨pDC,found⟩ := Option.isSome_iff_exists.mp some_
    obtain ⟨other,there,_⟩ := has name pDC found
    simp [take,there,here]
  · have own : ∃ own, next.storeMap name = some own ∧ own.tID = tID := by
      rcases made with ⟨_,same⟩ | ⟨equal,same⟩
      · exact ⟨_,by rw [same,Function.update_self],rfl⟩
      · exact ⟨pDC,by rw [same,found],equal⟩
    obtain ⟨own,after,typed⟩ := own
    have some_ : tID ≠ .none := fun none_ => set.1 (none_ ▸ rfl)
    obtain ⟨other,there,type,_⟩ := has name own after
    have same : other.tID = tID := (type (typed ▸ some_)).trans typed
    rw [here,take,foundEntry there,kept,here]
    simp [bind,Except.bind,pure,Except.pure,same,some_]
  · have own : ∃ own, next.storeMap name = some own ∧ own.nmemb = nmemb := by
      rcases made with ⟨_,same⟩ | ⟨equal,same⟩
      · exact ⟨_,by rw [same,Function.update_self],rfl⟩
      · exact ⟨pDC,by rw [same,found],equal⟩
    obtain ⟨own,after,sized⟩ := own
    have some_ : nmemb ≠ -1 := fun none_ => set.2 (none_ ▸ rfl)
    obtain ⟨other,there,_,length⟩ := has name own after
    have same : other.nmemb = nmemb := (length (sized ▸ some_)).trans sized
    rw [here,take,foundEntry there,kept]
    simp [bind,Except.bind,pure,Except.pure,same,some_]

def Points (r : Reader) : Prop := ∀ name, r.pDC = some name → (r.storeMap name).isSome

theorem takeBelow {larger : StoreMap} {after : Option Text}
    (has : take ⟨larger,r.pDC⟩ a = .ok ⟨larger,after⟩) (points : Points r)
    (below : Extends r.storeMap larger) : ∃ next, take r a = .ok next ∧ next.pDC = after ∧ Points next ∧
      Extends next.storeMap larger := by
  rcases takeCases has with ⟨name,rfl,here,some_,_⟩ |
    ⟨tID,name,other,rfl,here,there,kept,made⟩ | ⟨nmemb,name,other,rfl,here,there,kept,made⟩
  · obtain ⟨other,there⟩ := Option.isSome_iff_exists.mp some_
    refine ⟨_,rfl,here.symm,fun stName points => ?_,?_⟩
    · cases Option.some.inj points
      cases found : r.storeMap name with
      | none => simp
      | some pDC => simp [found]
    · cases found : r.storeMap name with
      | none =>
        refine updateExtends below ⟨other,there,?_,?_⟩
        · exact fun some_ => absurd rfl some_
        · exact fun some_ => absurd rfl some_
      | some pDC => exact below
  · replace here : r.pDC = some name := here
    replace there : larger name = some other := there
    have typed : other.tID = tID := by
      rcases made with ⟨_,same⟩ | ⟨equal,_⟩
      · replace same : larger = Function.update larger name (some { other with tID }) := same
        have entry := congrFun same name
        rw [there,Function.update_self] at entry
        exact congrArg DataContext.tID (Option.some.inj entry)
      · exact equal
    obtain ⟨pDC,found⟩ := Option.isSome_iff_exists.mp (points name here)
    obtain ⟨also,where_,type,length⟩ := below name pDC found
    cases there.symm.trans where_
    have entry : r.entry = .ok (name,pDC) := by
      obtain ⟨map,pointer⟩ := r
      cases here
      exact foundEntry found
    rw [take,entry]
    simp only [bind,Except.bind,pure,Except.pure]
    by_cases none_ : pDC.tID = .none
    · rw [if_pos none_]
      refine ⟨_,rfl,kept.symm,fun stName points => ?_,updateExtends below ⟨other,there,fun _ => typed,length⟩⟩
      cases here.symm.trans points
      simp
    · have same : pDC.tID = tID := (type none_).symm.trans typed
      rw [if_neg none_,if_neg (not_not.mpr same)]
      exact ⟨r,rfl,kept.symm,points,below⟩
  · replace here : r.pDC = some name := here
    replace there : larger name = some other := there
    have sized : other.nmemb = nmemb := by
      rcases made with ⟨_,same⟩ | ⟨equal,_⟩
      · replace same : larger = Function.update larger name (some { other with nmemb }) := same
        have entry := congrFun same name
        rw [there,Function.update_self] at entry
        exact congrArg DataContext.nmemb (Option.some.inj entry)
      · exact equal
    obtain ⟨pDC,found⟩ := Option.isSome_iff_exists.mp (points name here)
    obtain ⟨also,where_,type,length⟩ := below name pDC found
    cases there.symm.trans where_
    have entry : r.entry = .ok (name,pDC) := by
      obtain ⟨map,pointer⟩ := r
      cases here
      exact foundEntry found
    rw [take,entry]
    simp only [bind,Except.bind,pure,Except.pure]
    by_cases none_ : pDC.nmemb = -1
    · rw [if_pos none_]
      exact ⟨_,rfl,kept.symm,nofun,updateExtends below ⟨other,there,type,fun _ => sized⟩⟩
    · have same : pDC.nmemb = nmemb := (length none_).symm.trans sized
      rw [if_neg none_,if_neg (not_not.mpr same)]
      exact ⟨_,rfl,kept.symm,nofun,below⟩

end

section
variable {r next : Reader} {lines : List Text} {larger : StoreMap}

theorem lineParsed {s : Text} (read : readLine r s = .ok next) :
    ∃ a, parse s = .ok a ∧ take r a = .ok next := by
  rw [readLineParse] at read
  cases parsed : parse s with
  | error e => rw [parsed] at read; cases read
  | ok a => rw [parsed] at read; exact ⟨a,rfl,read⟩

theorem readCons {s : Text} : (s :: lines).foldlM readLine r = .ok next ↔
    ∃ mid, readLine r s = .ok mid ∧ lines.foldlM readLine mid = .ok next := by
  rw [List.foldlM_cons]
  cases readLine r s with
  | error e => exact ⟨nofun,fun ⟨_,h,_⟩ => nomatch h⟩
  | ok mid =>
    refine ⟨fun rest => ⟨mid,rfl,rest⟩,?_⟩
    rintro ⟨other,same,rest⟩
    cases same
    exact rest

theorem linesGrow (read : lines.foldlM readLine r = .ok next) : Extends r.storeMap next.storeMap := by
  induction lines generalizing r with
  | nil => cases read; exact extendsRefl _
  | cons s rest ih =>
    obtain ⟨mid,first,later⟩ := readCons.mp read
    obtain ⟨a,_,taken⟩ := lineParsed first
    exact extendsTrans (takeGrows taken) (ih later)

theorem linesAbsorbed (read : lines.foldlM readLine r = .ok next) (set : ∀ s ∈ lines, ¬ Unset s)
    (has : Extends next.storeMap larger) :
    lines.foldlM readLine ⟨larger,r.pDC⟩ = .ok ⟨larger,next.pDC⟩ := by
  induction lines generalizing r with
  | nil => cases read; rfl
  | cons s rest ih =>
    obtain ⟨mid,first,later⟩ := readCons.mp read
    obtain ⟨a,parsed,taken⟩ := lineParsed first
    have here := set s List.mem_cons_self
    have gives : a ≠ .type .none ∧ a ≠ .nmemb (-1) :=
      ⟨fun same => here (.inl (same ▸ parsed)),fun same => here (.inr (same ▸ parsed))⟩
    have same := takeAbsorbed taken gives (extendsTrans (linesGrow later) has)
    refine readCons.mpr ⟨_,?_,ih later fun x inside => set x (List.mem_cons_of_mem s inside)⟩
    rw [readLineParse,parsed]
    exact same

theorem linesBelow {base last : Reader} (read : lines.foldlM readLine base = .ok last)
    (set : ∀ s ∈ lines, ¬ Unset s) (has : Extends last.storeMap larger) (start : r.pDC = base.pDC)
    (points : Points r) (below : Extends r.storeMap larger) :
    ∃ final, lines.foldlM readLine r = .ok final ∧ Extends final.storeMap larger := by
  induction lines generalizing r base with
  | nil => exact ⟨r,rfl,below⟩
  | cons s rest ih =>
    obtain ⟨mid,first,later⟩ := readCons.mp read
    obtain ⟨a,parsed,taken⟩ := lineParsed first
    have here := set s List.mem_cons_self
    have gives : a ≠ .type .none ∧ a ≠ .nmemb (-1) :=
      ⟨fun same => here (.inl (same ▸ parsed)),fun same => here (.inr (same ▸ parsed))⟩
    have absorbed := takeAbsorbed taken gives (extendsTrans (linesGrow later) has)
    rw [← start] at absorbed
    obtain ⟨own,also,same,points',below'⟩ := takeBelow absorbed points below
    obtain ⟨final,done,inside⟩ := ih later (fun x inside => set x (List.mem_cons_of_mem s inside)) same
      points' below'
    exact ⟨final,readCons.mpr ⟨own,by rw [readLineParse,parsed]; exact also,done⟩,inside⟩

end

def AllSet (text : Text) : Prop := ∀ s ∈ fgetsAll 254 text, ¬ Unset s

section
variable {map larger : StoreMap} {text : Text}

theorem fileGrows {last : StoreMap} (read : readStoreFile map text = .ok last) : Extends map last := by
  unfold readStoreFile at read
  cases done : (fgetsAll 254 text).foldlM readLine ⟨map,none⟩ with
  | error e => rw [done] at read; cases read
  | ok r => rw [done] at read; cases read; exact linesGrow done

theorem fileAbsorbed {last : StoreMap} (read : readStoreFile map text = .ok last) (set : AllSet text)
    (has : Extends last larger) : readStoreFile larger text = .ok larger := by
  unfold readStoreFile at read ⊢
  cases done : (fgetsAll 254 text).foldlM readLine ⟨map,none⟩ with
  | error e => rw [done] at read; cases read
  | ok r =>
    rw [done] at read
    cases read
    rw [linesAbsorbed done set has]
    rfl

theorem fileBelow (has : readStoreFile larger text = .ok larger) (set : AllSet text)
    (below : Extends map larger) : ∃ last, readStoreFile map text = .ok last ∧ Extends last larger := by
  unfold readStoreFile at has ⊢
  cases done : (fgetsAll 254 text).foldlM readLine ⟨larger,none⟩ with
  | error e => rw [done] at has; cases has
  | ok r =>
    rw [done] at has
    have within : Extends r.storeMap larger := by
      cases has
      exact extendsRefl _
    obtain ⟨last,read,inside⟩ := linesBelow (r := ⟨map,none⟩) done set within rfl nofun below
    exact ⟨last.storeMap,by rw [read]; rfl,inside⟩

end

theorem recordsWhole (records : List (Text × Info)) :
    recordsText records = [] ∨ (recordsText records).getLast? = some '\n' := by
  induction records using List.reverseRecOn with
  | nil => exact .inl rfl
  | append_singleton records r _ =>
    rw [recordsSnoc,storeRecord]
    simp only [line,← List.append_assoc]
    exact .inr List.getLast?_concat

theorem fgetsAllCons {n : Nat} {text : Text} (some_ : text ≠ []) :
    fgetsAll n text = (fgets (n + 1) text).1 :: fgetsAll n (fgets (n + 1) text).2 := by
  cases text with
  | nil => exact absurd rfl some_
  | cons c rest => rw [fgetsAll]

theorem recordsFirst {records : List (Text × Info)} (some_ : recordsText records ≠ []) :
    ∃ s rest, fgetsAll 254 (recordsText records) = s :: rest ∧ contains "NAME:" s = true := by
  refine ⟨_,_,fgetsAllCons some_,?_⟩
  cases records with
  | nil => exact absurd rfl some_
  | cons r records =>
    obtain ⟨tail,text⟩ : ∃ tail, recordsText (r :: records) = "NN-STORE-DATA-NAME:".toList ++ tail := by
      simp only [recordsText,List.flatMap_cons,storeRecord,line,List.append_assoc]
      exact ⟨_,rfl⟩
    have cut : fgets (254 + 1) ("NN-STORE-DATA-NAME:".toList ++ tail) = _ :=
      fgetsKey (by decide : '\n' ∉ "NN-STORE-DATA-NAME:".toList) 236 tail
    rw [text,cut,contains,decide_eq_true_eq]
    have inside : "NAME:".toList <:+: "NN-STORE-DATA-NAME:".toList := by decide
    exact inside.trans (List.prefix_append _ _).isInfix

theorem recordsAnywhere (records : List (Text × Info)) (map : StoreMap) {p q : Option Text} {next : Reader}
    (read : (fgetsAll 254 (recordsText records)).foldlM readLine ⟨map,p⟩ = .ok next) :
    ∃ after, (fgetsAll 254 (recordsText records)).foldlM readLine ⟨map,q⟩ = .ok ⟨next.storeMap,after⟩ := by
  by_cases none_ : recordsText records = []
  · rw [none_,fgetsAll] at read ⊢
    cases read
    exact ⟨q,rfl⟩
  · obtain ⟨s,rest,lines,named⟩ := recordsFirst none_
    have same : readLine ⟨map,q⟩ s = readLine ⟨map,p⟩ s := by
      rw [readLine,readLine,if_pos named,if_pos named]
    rw [lines] at read ⊢
    refine ⟨next.pDC,?_⟩
    obtain ⟨mid,first,later⟩ := readCons.mp read
    exact readCons.mpr ⟨mid,same.trans first,later⟩

section
variable {larger : StoreMap} {old own : List (Text × Info)}

theorem fileRead {text : Text} : readStoreFile larger text = .ok larger ↔
    ∃ after, (fgetsAll 254 text).foldlM readLine ⟨larger,none⟩ = .ok ⟨larger,after⟩ := by
  unfold readStoreFile
  cases (fgetsAll 254 text).foldlM readLine ⟨larger,none⟩ with
  | error e => exact ⟨nofun,fun ⟨_,h⟩ => nomatch h⟩
  | ok r =>
    constructor
    · intro same
      cases same
      exact ⟨r.pDC,rfl⟩
    · rintro ⟨after,same⟩
      cases same
      rfl

theorem joinedAbsorbed (first : readStoreFile larger (recordsText old) = .ok larger)
    (second : readStoreFile larger (recordsText own) = .ok larger) :
    readStoreFile larger (recordsText old ++ recordsText own) = .ok larger := by
  obtain ⟨mid,first⟩ := fileRead.mp first
  obtain ⟨last,second⟩ := fileRead.mp second
  obtain ⟨after,second⟩ := recordsAnywhere own larger (q := mid) second
  refine fileRead.mpr ⟨after,?_⟩
  rw [fgetsAllAppend (recordsWhole old),foldAppend,first]
  exact second

theorem ownAbsorbed (both : readStoreFile larger (recordsText old ++ recordsText own) = .ok larger)
    (set : AllSet (recordsText own)) : readStoreFile larger (recordsText own) = .ok larger := by
  obtain ⟨last,both⟩ := fileRead.mp both
  rw [fgetsAllAppend (recordsWhole old),foldAppend] at both
  cases first : (fgetsAll 254 (recordsText old)).foldlM readLine ⟨larger,none⟩ with
  | error e => rw [first] at both; cases both
  | ok mid =>
    rw [first] at both
    have absorbed := linesAbsorbed both set (extendsRefl larger)
    obtain ⟨after,second⟩ := recordsAnywhere own larger (q := none) absorbed
    exact fileRead.mpr ⟨after,second⟩

theorem allSetAppend (first : AllSet (recordsText old)) (second : AllSet (recordsText own)) :
    AllSet (recordsText old ++ recordsText own) := by
  intro s inside
  rw [fgetsAllAppend (recordsWhole old)] at inside
  rcases List.mem_append.mp inside with early | late
  · exact first s early
  · exact second s late

end

/- A model directory that readStoreInfo reads, and the text it reads there. -/
def Listed (fs : FS) (m : Text) : Prop :=
  (m ≠ ['.'] ∧ m ≠ ['.','.']) ∧ fs [piDir,m] = some .dir

def infoText (fs : FS) (m : Text) : Option Text :=
  match fs (storePath m .one) with
  | some node => some node.text
  | none => (fs (storePath m .ens)).map Node.text

theorem readModelCases (fs : FS) (map : StoreMap) (m : Text) :
    (¬ Listed fs m ∧ readModel fs map m = .ok map) ∨
    (Listed fs m ∧ ∃ text, infoText fs m = some text ∧ readModel fs map m = readStoreFile map text) ∨
    (Listed fs m ∧ infoText fs m = none ∧ ∃ e, readModel fs map m = .error e) := by
  unfold readModel infoText
  by_cases listed : m ≠ ['.'] ∧ m ≠ ['.','.'] ∧ fs [piDir,m] = some .dir
  · rw [if_pos listed]
    have here : Listed fs m := ⟨⟨listed.1,listed.2.1⟩,listed.2.2⟩
    refine .inr ?_
    cases fs (storePath m .one) with
    | some node => exact .inl ⟨here,node.text,rfl,rfl⟩
    | none =>
      cases fs (storePath m .ens) with
      | some node => exact .inl ⟨here,node.text,rfl,rfl⟩
      | none => exact .inr ⟨here,rfl,_,rfl⟩
  · rw [if_neg listed]
    exact .inl ⟨fun here => listed ⟨here.1.1,here.1.2,here.2⟩,rfl⟩

section
variable {fs : FS} {entries : List Text} {map last larger : StoreMap}

def AllGiven (fs : FS) : Prop := ∀ m text, Listed fs m → infoText fs m = some text → AllSet text

theorem entriesCons {m : Text} : (m :: entries).foldlM (readModel fs) map = .ok last ↔
    ∃ mid, readModel fs map m = .ok mid ∧ entries.foldlM (readModel fs) mid = .ok last := by
  rw [List.foldlM_cons]
  cases readModel fs map m with
  | error e => exact ⟨nofun,fun ⟨_,h,_⟩ => nomatch h⟩
  | ok mid =>
    refine ⟨fun rest => ⟨mid,rfl,rest⟩,?_⟩
    rintro ⟨other,same,rest⟩
    cases same
    exact rest

theorem entriesGrow (read : entries.foldlM (readModel fs) map = .ok last) : Extends map last := by
  induction entries generalizing map with
  | nil => cases read; exact extendsRefl _
  | cons m rest ih =>
    obtain ⟨mid,first,later⟩ := entriesCons.mp read
    refine extendsTrans ?_ (ih later)
    rcases readModelCases fs map m with ⟨_,same⟩ | ⟨_,text,_,same⟩ | ⟨_,_,e,failed⟩
    · rw [same] at first
      cases first
      exact extendsRefl _
    · exact fileGrows (same ▸ first)
    · rw [failed] at first
      cases first

theorem entriesAbsorbed (given : AllGiven fs) (read : entries.foldlM (readModel fs) map = .ok last)
    (has : Extends last larger) {m : Text} (inside : m ∈ entries) (listed : Listed fs m) :
    ∃ text, infoText fs m = some text ∧ readStoreFile larger text = .ok larger := by
  induction entries generalizing map with
  | nil => cases inside
  | cons other rest ih =>
    obtain ⟨mid,first,later⟩ := entriesCons.mp read
    rcases List.mem_cons.mp inside with rfl | more
    · rcases readModelCases fs map m with ⟨skipped,_⟩ | ⟨_,text,found,same⟩ | ⟨_,_,e,failed⟩
      · exact absurd listed skipped
      · exact ⟨text,found,fileAbsorbed (same ▸ first) (given m text listed found)
          (extendsTrans (entriesGrow later) has)⟩
      · rw [failed] at first
        cases first
    · exact ih later more

theorem entriesBelow (given : AllGiven fs) (has : ∀ m ∈ entries, Listed fs m →
      ∃ text, infoText fs m = some text ∧ readStoreFile larger text = .ok larger)
    (below : Extends map larger) :
    ∃ last, entries.foldlM (readModel fs) map = .ok last ∧ Extends last larger := by
  induction entries generalizing map with
  | nil => exact ⟨map,rfl,below⟩
  | cons m rest ih =>
    have step : ∃ mid, readModel fs map m = .ok mid ∧ Extends mid larger := by
      rcases readModelCases fs map m with ⟨_,same⟩ | ⟨listed,text,found,same⟩ | ⟨listed,none_,_⟩
      · exact ⟨map,same,below⟩
      · obtain ⟨other,also,absorbed⟩ := has m List.mem_cons_self listed
        cases found.symm.trans also
        rw [same]
        exact fileBelow absorbed (given m text listed found) below
      · obtain ⟨other,also,_⟩ := has m List.mem_cons_self listed
        rw [none_] at also
        cases also
    obtain ⟨mid,first,inside⟩ := step
    obtain ⟨last,later,within⟩ := ih (fun x listed => has x (List.mem_cons_of_mem m listed)) inside
    exact ⟨last,entriesCons.mpr ⟨mid,first,later⟩,within⟩

end

end Autonomizer.Reread
