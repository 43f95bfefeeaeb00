import Mathlib
import Autonomizer.Handed
import Autonomizer.InTurn

/-! Training data from the C++ writer to the Python reader: the rows of the Dataset of a
run in turn, beside the values its children handed over. -/
namespace Autonomizer.RoundTrip
open Binary64 Data DataFiles FileIO FileSystem Footprint Format Handed InTurn PIInc PINNHelper Process
open ProgIntel SingleModel StoreFile Template Trace Widths

def integral : TypeID → Prop
  | .c | .s | .i | .l | .uc | .us | .ui | .ul => True
  | _ => False

def Exact (v : Scalar) : Prop := ∃ x : Int, v = .int x ∧ x.natAbs ≤ 2^53

structure Integers (p : TypeID × List Scalar) : Prop where
  typed : integral p.1
  some_ : p.2 ≠ []
  exact_ : ∀ v ∈ p.2, Exact v

def Uniform (p : TypeID × List Scalar) : Prop := ∀ v ∈ p.2, p.2.head? = some v

/- A name of one line without the words that announce a length. -/
structure PlainName (name : Text) : Prop where
  whole : '\n' ∉ name
  noLoad : ¬ loadMarker <:+: name
  noStore : ¬ storeMarker <:+: name

/- The row that a child's data should become. -/
def rowIn (r : Row) : List Fp := r.held.2.map Scalar.toDouble
def rowOut (r : Row) : List Fp := r.passed.flatMap (fun p => p.2.map Scalar.toDouble)

def readSection (p : TypeID × List Scalar) : List Fp :=
  ((sectionValues p).take p.2.length).map Scalar.toDouble

/- The training directory is read as n rows, and that of file k is as its child had it. -/
def RowsKept (fs : FS) (m : Text) (n : Nat) (row : Nat → Row) : Prop :=
  ∀ files, Walk fs [piDir,m,piTrainDir] files → ∃ ds, Dataset.init fs files = .ok ds ∧
    ds.dsIn.length = n ∧ ds.dsOut.length = n ∧
    ∀ k < n, ∃ i : Nat, files[i]? = some (dataFile m (piTrainDir,k)) ∧
      ds.dsIn[i]? = some (rowIn (row k)) ∧ ds.dsOut[i]? = some (rowOut (row k))

/- A child hands over integers under plain names, and stores every name once. -/
structure Hands (m : Text) (loads stores : List Text) (ctx : PIContext) (before after : List Call)
    (row : Row) : Prop where
  first : PlainName (loads.headD [])
  names : ∀ name ∈ storeNames after, PlainName name
  once : (storeNames after).Nodup
  hands : handed ctx m loads stores before after = .ok row
  held : Integers row.held
  passed : ∀ p ∈ row.passed, Integers p

theorem plainHarmless {name : Text} (plain : PlainName name) (target : Target) :
    Harmless target name :=
  harmlessPlain plain.whole plain.noLoad plain.noStore target

theorem readBackExact {v : Scalar} (exact_ : Exact v) : readBack v = v.toDouble := by
  obtain ⟨x,rfl,small⟩ := exact_
  have read : pyFloat (printed (.int x)) = some (Fp.ofInt x) := pyFloatDecimal small
  rw [readBack,read,Option.getD_some]
  rfl

theorem ofIntInjective {x y : Int} (same : Fp.ofInt x = Fp.ofInt y) : x = y := by
  simp only [Fp.ofInt,Fp.fin.injEq,decide_eq_decide,Nat.cast_inj] at same
  omega

theorem exactInjective {v w : Scalar} (first : Exact v) (second : Exact w)
    (same : v.toDouble = w.toDouble) : v = w := by
  obtain ⟨x,rfl,_⟩ := first
  obtain ⟨y,rfl,_⟩ := second
  rw [ofIntInjective same]

section
variable {α β : Type}

theorem shiftedSame (v : α) (w : List α) : (v :: w).take w.length = w ↔ ∀ u ∈ w, u = v := by
  induction w generalizing v with
  | nil => simp
  | cons u w ih =>
    rw [List.length_cons,List.take_succ_cons,List.cons.injEq,ih u,List.forall_mem_cons]
    constructor
    · intro ⟨same,all⟩
      exact ⟨same.symm,fun x inside => (all x inside).trans same.symm⟩
    · intro ⟨same,all⟩
      exact ⟨same.symm,fun x inside => (all x inside).trans same.symm⟩

theorem flatMapSame {f g : α → List β} {ps : List α}
    (lengths : ∀ p ∈ ps, (f p).length = (g p).length) :
    ps.flatMap f = ps.flatMap g ↔ ∀ p ∈ ps, f p = g p := by
  induction ps with
  | nil => simp
  | cons p ps ih =>
    have rest := ih (fun q inside => lengths q (List.mem_cons_of_mem p inside))
    rw [List.flatMap_cons,List.flatMap_cons,List.forall_mem_cons,← rest]
    constructor
    · exact fun same => List.append_inj same (lengths p List.mem_cons_self)
    · exact fun same => by rw [same.1,same.2]

end

theorem sectionTaken {p : TypeID × List Scalar} (v : Scalar)
    (inside : v ∈ (sectionValues p).take p.2.length) : v ∈ p.2 := by
  have among := List.mem_of_mem_take inside
  unfold sectionValues at among
  split at among
  · rcases List.mem_append.mp among with first | later
    · exact List.mem_of_head? (Option.mem_toList.mp first)
    · exact later
  · exact among

theorem sectionLength (p : TypeID × List Scalar) : p.2.length ≤ (sectionValues p).length := by
  unfold sectionValues
  split
  · rw [List.length_append]
    exact Nat.le_add_left ..
  · exact le_rfl

/- The section of a store is read as what was passed unless its first element pushes a
different last one out. -/
theorem sectionSame {p : TypeID × List Scalar} (integers : Integers p) :
    readSection p = p.2.map Scalar.toDouble ↔ (p.1 = .uc ∨ p.1 = .ui → Uniform p) := by
  obtain ⟨tID,values⟩ := p
  obtain ⟨v,w,rfl⟩ := List.exists_cons_of_ne_nil integers.some_
  have exact_ := integers.exact_
  by_cases twice : tID = .uc ∨ tID = .ui
  · have own : doubled tID := twice.imp id .inl
    have shape : readSection (tID,v :: w) = v.toDouble ::
        (v.toDouble :: w.map Scalar.toDouble).take (w.map Scalar.toDouble).length := by
      simp [readSection,sectionValues,own]
    rw [shape,List.map_cons,List.cons.injEq,shiftedSame,imp_iff_right twice]
    constructor
    · intro ⟨_,all⟩ u inside
      refine congrArg some (exactInjective (exact_ v List.mem_cons_self) (exact_ u inside) ?_)
      rcases List.mem_cons.mp inside with same | later
      · rw [same]
      · exact (all _ (List.mem_map_of_mem later)).symm
    · intro uniform
      refine ⟨rfl,fun x inside => ?_⟩
      obtain ⟨u,later,rfl⟩ := List.mem_map.mp inside
      have same : some v = some u := uniform u (List.mem_cons_of_mem v later)
      rw [Option.some.inj same]
  · have other : ¬ doubled tID := by
      rintro (h | h | h)
      · exact twice (.inl h)
      · exact twice (.inr h)
      · exact (h ▸ integers.typed : integral .f)
    have whole : readSection (tID,v :: w) = (v :: w).map Scalar.toDouble := by
      simp only [readSection,sectionValues,if_neg other,List.take_length]
    exact ⟨fun _ here => absurd here twice,fun _ => whole⟩

theorem sectionParts {names : List Text} {outs : List Piece} {ps : List (TypeID × List Scalar)}
    (sections : List.Forall₂ (SectionOf names) outs ps) (plain : ∀ name ∈ names, PlainName name)
    (integers : ∀ p ∈ ps, Integers p) :
    (∀ part ∈ outs.map partOf, part.harmless ∧ part.enough) ∧
      (outs.map partOf).flatMap (fun p => p.target.inputs p.numbers) = [] ∧
      (outs.map partOf).flatMap (fun p => p.target.outputs p.numbers) = ps.flatMap readSection := by
  induction sections with
  | nil => exact ⟨fun part inside => absurd inside List.not_mem_nil,rfl,rfl⟩
  | @cons out p outs ps first _ ih =>
    obtain ⟨name,nmemb,rfl,length,among⟩ := first
    obtain ⟨all,noInputs,outputs⟩ := ih (fun q inside => integers q (List.mem_cons_of_mem p inside))
    have own := integers p List.mem_cons_self
    refine ⟨fun part inside => ?_,?_,?_⟩
    · rcases List.mem_cons.mp inside with rfl | later
      · refine ⟨plainHarmless (plain name among) .dOut,?_⟩
        show nmemb.toNat ≤ (sectionValues p).length
        rw [length]
        exact sectionLength p
      · exact all part later
    · rw [List.map_cons,List.flatMap_cons,noInputs]
      rfl
    · rw [List.map_cons,List.flatMap_cons,List.flatMap_cons,outputs]
      refine congrArg (· ++ _) ?_
      show ((sectionValues p).take nmemb.toNat).map readBack = _
      rw [length]
      exact List.map_congr_left fun v inside => readBackExact (own.exact_ v (sectionTaken v inside))

theorem beforeKeeps {ctx next : PIContext} {script : List Call} {pieces : List Piece}
    (plain : ∀ c ∈ script, isNN c = false ∧ isStore c = false) (heap : Heap ctx.memory)
    (unstored : ∀ name, ctx.storeMap name = none)
    (single : ∀ name pDC, ctx.loadMap name = some pDC → pDC.combinedLoad = [])
    (done : effects ctx script = .ok (next,pieces)) : Heap next.memory ∧
      (∀ name, next.storeMap name = none) ∧
      ∀ name pDC, next.loadMap name = some pDC → pDC.combinedLoad = [] := by
  induction script generalizing ctx pieces with
  | nil => cases done; exact ⟨heap,unstored,single⟩
  | cons c rest ih =>
    obtain ⟨mid,early,late,taken,rested,rfl⟩ := effectsCons done
    obtain ⟨noNN,noStore⟩ := plain c List.mem_cons_self
    obtain ⟨heap',others,combined⟩ := callKeeps noNN heap taken
    have none_ : storeNames [c] = [] := by
      cases c <;> first | rfl | cases noStore
    refine ih (fun d inside => plain d (List.mem_cons_of_mem c inside)) heap' (fun name => ?_)
      (combined single) rested
    rw [others name (by rw [none_]; exact List.not_mem_nil)]
    exact unstored name

theorem handedDone {ctx : PIContext} {m : Text} {loads stores : List Text} {before after : List Call}
    {row : Row} (hands : handed ctx m loads stores before after = .ok row) :
    ∃ ctx₁ ctx₂ early pieces, effects ctx before = .ok (ctx₁,early) ∧
      heldBy ctx₁ (loads.headD []) = .ok row.held ∧
      effectOf ctx₁ (.piNN m .one loads stores) = .ok (ctx₂,pieces) ∧
      passedBy ctx₂ after = .ok row.passed := by
  simp only [handed,bind,Except.bind] at hands
  split at hands <;> try contradiction
  next first begun =>
  split at hands <;> try contradiction
  next held got =>
  split at hands <;> try contradiction
  next second network =>
  split at hands <;> try contradiction
  next passed stored =>
  cases hands
  exact ⟨first.1,second.1,first.2,second.2,begun,got,network,stored⟩

section
variable {m modPath : Text} {loads stores : List Text} {n v : Nat} {before after : Nat → List Call}
  {inOrder : Prop} {t : Children} {row : Nat → Row}

theorem childReads (end_ : Finished m modPath loads stores n v before after inOrder t) {k : Nat}
    (below : k < n) (one : OneNetwork (before k) (after k))
    (hands : Hands m loads stores (childContext modPath n v k) (before k) (after k) (row k)) :
    Reads t.shared (dataFile m (piTrainDir,k))
      (rowIn (row k),(row k).passed.flatMap readSection) := by
  obtain ⟨next,pieces,done,text⟩ := end_.file k (by omega)
  obtain ⟨ctx₁,ctx₂,pDC,values,outs,first,combined,known,got,rest,rfl⟩ := scriptedEffects one done
  obtain ⟨ctx₁',after₁,early,late,first',held,network,passed⟩ := handedDone hands.hands
  cases first.symm.trans first'
  have start : Heap (childContext modPath n v k).memory :=
    ⟨⟨Nat.one_pos,fun p block there => (nomatch there)⟩,rfl⟩
  obtain ⟨heap,unstored,single⟩ := beforeKeeps one.loads start (fun _ => rfl)
    (fun name pDC known => (nomatch known)) first
  have combining : Combining ctx₁ ctx₂ := combineLoadKeeps ⟨heap,le_rfl,fun _ _ h => h,
    fun _ _ => rfl,fun other pOther found several => absurd (single other pOther found) several,rfl⟩
    combined
  have own := heldKept heap single held hands.held.some_ combined known got
  have here : after₁ = recordStores ctx₂ m .one loads stores := by
    simp only [effectOf,combined,known,got,bind,Except.bind,pure,Except.pure] at network
    cases network
    rfl
  subst here
  -- the names of the stores are new to the context
  have stored : ∀ name, (recordStores ctx₂ m .one loads stores).storeMap name = none :=
    fun name => (congrFun combining.stores name).trans (unstored name)
  have heap₂ : Heap (recordStores ctx₂ m .one loads stores).memory := combining.heap
  have sections := storesPassed heap₂ one.rest hands.once (fun name inside => inside)
    (fun name _ => stored name) passed (fun p inside => (hands.passed p inside).some_) rest
  obtain ⟨all,noInputs,outputs⟩ := sectionParts sections hands.names hands.passed
  rw [placeOf,if_pos below,fileSections (outputPieces one.rest rest).1] at text
  have length := loadValuesLength got
  have parts : ∀ p ∈ (⟨.dIn,loads.headD [],pDC.nmemb,values⟩ :: outs.map partOf : List Part),
      p.harmless ∧ p.enough := by
    intro p inside
    rcases List.mem_cons.mp inside with rfl | later
    · exact ⟨plainHarmless hands.first .dIn,length.ge⟩
    · exact all p later
  obtain ⟨r,read,arrayIn,arrayOut⟩ := partsFile (fun p inside => (parts p inside).1)
    (fun p inside => (parts p inside).2) (-1)
  refine ⟨_,r,fileAt text,read,Prod.ext ?_ ?_⟩
  · rw [arrayIn,List.flatMap_cons,noInputs,List.append_nil]
    show (values.take pDC.nmemb.toNat).map readBack = _
    rw [← length,List.take_length,rowIn,own]
    exact List.map_congr_left fun v inside => readBackExact (hands.held.exact_ v (own ▸ inside))
  · rw [arrayOut,List.flatMap_cons,outputs]
    rfl

theorem rowsRead (end_ : Finished m modPath loads stores n v before after True t)
    (one : ∀ k < n + v, OneNetwork (before k) (after k))
    (hands : ∀ k < n, Hands m loads stores (childContext modPath n v k) (before k) (after k) (row k))
    {files : List Path} (walk : Walk t.shared [piDir,m,piTrainDir] files) :
    ∃ ds, Dataset.init t.shared files = .ok ds ∧ ds.dsIn.length = n ∧ ds.dsOut.length = n ∧
      ∀ k < n, (∃ i : Nat, files[i]? = some (dataFile m (piTrainDir,k))) ∧
        ∀ i : Nat, files[i]? = some (dataFile m (piTrainDir,k)) →
          ds.dsIn[i]? = some (rowIn (row k)) ∧
          ds.dsOut[i]? = some ((row k).passed.flatMap readSection) := by
  have reads (k : Nat) (below : k < n) := childReads end_ below (one k (by omega)) (hands k below)
  have written : ∀ k < n, (fileText (t.shared (dataFile m (piTrainDir,k)))).isSome := by
    intro k below
    obtain ⟨text,_,found,_⟩ := reads k below
    rw [found]
    rfl
  have perm := walkPerm end_ written walk
  have all : ∀ path ∈ files, ∃ own, Reads t.shared path own ∧ ∃ k < n,
      path = dataFile m (piTrainDir,k) ∧ own = (rowIn (row k),(row k).passed.flatMap readSection) := by
    intro path inside
    obtain ⟨k,below,rfl⟩ := List.mem_map.mp (perm.mem_iff.mp inside)
    have bound := List.mem_range.mp below
    exact ⟨_,reads k bound,k,bound,rfl,rfl⟩
  obtain ⟨ds,rows,read,each,dsIn,dsOut⟩ := datasetInit all
  have count : rows.length = n := by
    rw [← each.length_eq,perm.length_eq,List.length_map,List.length_range]
  refine ⟨ds,read,by rw [dsIn,List.length_map,count],by rw [dsOut,List.length_map,count],
    fun k below => ⟨?_,fun i found => ?_⟩⟩
  · have inside : dataFile m (piTrainDir,k) ∈ files :=
      perm.mem_iff.mpr (List.mem_map_of_mem (List.mem_range.mpr below))
    exact List.getElem?_of_mem inside
  · obtain ⟨bound,here⟩ := List.getElem?_eq_some_iff.mp found
    have bound' : i < rows.length := each.length_eq ▸ bound
    obtain ⟨j,_,path,own⟩ := each.get bound bound'
    replace path : files[i] = dataFile m (piTrainDir,j) := path
    obtain ⟨_,rfl⟩ := Prod.mk.inj (dataFileInjective (here.symm.trans path))
    replace own : rows[i] = _ := own
    rw [dsIn,dsOut,List.getElem?_map,List.getElem?_map,List.getElem?_eq_getElem bound',own]
    exact ⟨rfl,rfl⟩

theorem keptRow (end_ : Finished m modPath loads stores n v before after True t)
    (one : ∀ k < n + v, OneNetwork (before k) (after k))
    (hands : ∀ k < n, Hands m loads stores (childContext modPath n v k) (before k) (after k) (row k))
    (kept : RowsKept t.shared m n row) {k : Nat} (below : k < n) :
    (row k).passed.flatMap readSection = rowOut (row k) := by
  have written : ∀ k < n, (fileText (t.shared (dataFile m (piTrainDir,k)))).isSome := by
    intro k below
    obtain ⟨text,_,found,_⟩ := childReads end_ below (one k (by omega)) (hands k below)
    rw [found]
    rfl
  have walk := trainWalk end_ (clearInTurn end_) written
  obtain ⟨ds,read,_,_,rows⟩ := rowsRead end_ one hands walk
  obtain ⟨ds',read',_,_,rows'⟩ := kept _ walk
  cases read.symm.trans read'
  obtain ⟨i,found,_,given⟩ := rows' k below
  exact Option.some.inj (((rows k below).2 i found).2.symm.trans given)

theorem sectionsSame {r : Row} (integers : ∀ p ∈ r.passed, Integers p) :
    r.passed.flatMap readSection = rowOut r ↔
      ∀ p ∈ r.passed, p.1 = .uc ∨ p.1 = .ui → Uniform p := by
  have lengths : ∀ p ∈ r.passed, (readSection p).length = (p.2.map Scalar.toDouble).length := by
    intro p _
    rw [readSection,List.length_map,List.length_map,List.length_take_of_le (sectionLength p)]
  rw [rowOut,flatMapSame lengths]
  exact forall₂_congr fun p inside => sectionSame (integers p inside)

/- Every row is what its child handed over exactly when no store of PIT_UC or PIT_UI is
given two different elements. -/
theorem rowsKeptIffUniform (some_ : 1 ≤ n) (one : ∀ k < n + v, OneNetwork (before k) (after k))
    (hands : ∀ k < n, Hands m loads stores (childContext modPath n v k) (before k) (after k) (row k))
    {fs : FS} (fresh : Fresh m fs) {schedule : List Nat}
    (run : Run (System.step handle) inTurn
      (start fs (networkRun m modPath loads stores n v before after)) schedule t)
    (done : ∀ k < n + v, (t.procs k).returned) :
    RowsKept t.shared m n row ↔
      ∀ k < n, ∀ p ∈ (row k).passed, p.1 = .uc ∨ p.1 = .ui → Uniform p := by
  have end_ := runInTurn some_ one fresh run done
  constructor
  · intro kept k below
    exact (sectionsSame (hands k below).passed).mp (keptRow end_ one hands kept below)
  · intro uniform files walk
    obtain ⟨ds,read,countIn,countOut,rows⟩ := rowsRead end_ one hands walk
    refine ⟨ds,read,countIn,countOut,fun k below => ?_⟩
    obtain ⟨⟨i,found⟩,arrays⟩ := rows k below
    obtain ⟨atIn,atOut⟩ := arrays i found
    exact ⟨i,found,atIn,(sectionsSame (hands k below).passed).mpr (uniform k below) ▸ atOut⟩

end

def loadPair (a b : UInt8) : List Call :=
  [.poke 1 [5,0,0,0],.piLoad ['x'] .i 1 1 false,.poke 2 [a,b]]

def storePair : List Call := [.piStore ['y'] .uc 2 2]

def pairChild (a b : UInt8) : Nat → Steps Unit :=
  networkRun ['m'] [] [['x']] [['y']] 1 0 (fun _ => loadPair a b) (fun _ => storePair)

def pairRow (a b : UInt8) : Row :=
  ⟨(.i,[.int 5]),[(.uc,[.int a.toNat,.int b.toNat])]⟩

theorem pairNetwork (a b : UInt8) : OneNetwork (loadPair a b) storePair := by
  constructor
  · simp [loadPair,isNN,isStore]
  · simp [storePair,isNN]

theorem pairHands (a b : UInt8) (hands : handed (childContext [] 1 0 0) ['m'] [['x']] [['y']]
    (loadPair a b) storePair = .ok (pairRow a b)) :
    Hands ['m'] [['x']] [['y']] (childContext [] 1 0 0) (loadPair a b) storePair (pairRow a b) := by
  have small (c : UInt8) : Exact (.int c.toNat) := by
    have := c.toNat_lt
    exact ⟨_,rfl,by omega⟩
  have plain (c : Char) (other : c ≠ '\n') : PlainName [c] := by
    have short {marker : Text} (long : 1 < marker.length) : ¬ marker <:+: [c] := fun inside =>
      absurd inside.length_le (not_le.mpr long)
    exact ⟨fun inside => other (List.mem_singleton.mp inside).symm,short (by decide),short (by decide)⟩
  refine ⟨plain 'x' (by decide),fun name inside => ?_,List.nodup_singleton _,hands,
    ⟨trivial,List.cons_ne_nil _ _,fun v inside => ?_⟩,fun p inside => ?_⟩
  · rw [List.mem_singleton.mp inside]
    exact plain 'y' (by decide)
  · rw [List.mem_singleton.mp inside]
    exact ⟨5,rfl,by decide⟩
  · rw [List.mem_singleton.mp inside]
    refine ⟨trivial,List.cons_ne_nil _ _,fun v member => ?_⟩
    rcases List.mem_cons.mp member with rfl | later
    · exact small a
    · rw [List.mem_singleton.mp later]
      exact small b

theorem pairRun {a b : UInt8} {schedule : List Nat} (all : (stepsChecked (System.step handle)
    (fun _ _ => true) (start onlyMain (pairChild a b) : Children) schedule).map
      (fun t => (t.procs 0).returned) = some true) :
    ∃ t, Run (System.step handle) inTurn (start onlyMain (pairChild a b)) schedule t ∧
      ∀ k < 1 + 0, (t.procs k).returned := by
  obtain ⟨t,reached,returned⟩ := Option.map_eq_some_iff.mp all
  have others : ∀ j, j ≠ 0 →
      (start onlyMain (pairChild a b) : Children).procs j = .ret () := by
    intro j other
    have past : ¬ j < 1 + 0 := by omega
    simp only [start,pairChild,networkRun,production,if_neg past]
    rfl
  refine ⟨t,aloneInTurn others (runChecked (fun _ _ _ => trivial) reached),fun k below => ?_⟩
  rw [show k = 0 by omega]
  exact returned

/- Two equal elements come through. -/
theorem equalPairKept : ∃ schedule t, Run (System.step handle) inTurn
    (start onlyMain (pairChild 7 7)) schedule t ∧
    RowsKept t.shared ['m'] 1 (fun _ => pairRow 7 7) := by
  have evaluated : (stepsChecked (System.step handle) (fun _ _ => true)
      (start onlyMain (pairChild 7 7) : Children) (List.replicate 16 0)).map
        (fun t => (t.procs 0).returned) = some true ∧
      handed (childContext [] 1 0 0) ['m'] [['x']] [['y']] (loadPair 7 7) storePair = .ok (pairRow 7 7) := by
    decide +kernel
  obtain ⟨all,given⟩ := evaluated
  obtain ⟨t,run,done⟩ := pairRun all
  have hands := pairHands 7 7 given
  have uniform : ∀ k < 1, ∀ p ∈ ((fun _ => pairRow 7 7 : Nat → Row) k).passed,
      p.1 = .uc ∨ p.1 = .ui → Uniform p := by
    intro k _ p inside _ v member
    cases List.mem_singleton.mp inside
    rcases List.mem_cons.mp member with rfl | later
    · rfl
    · rw [List.mem_singleton.mp later]
      rfl
  refine ⟨_,t,run,(rowsKeptIffUniform (by decide) (fun _ _ => pairNetwork 7 7)
    (fun k below => ?_) onlyMainFresh run done).mpr uniform⟩
  rw [show k = 0 by omega]
  exact hands

/- Of two different elements the second is lost and the first read twice. -/
theorem unequalPairLost : ∃ schedule t, Run (System.step handle) inTurn
    (start onlyMain (pairChild 1 2)) schedule t ∧ (∀ k < 1 + 0, (t.procs k).returned) ∧
    Hands ['m'] [['x']] [['y']] (childContext [] 1 0 0) (loadPair 1 2) storePair (pairRow 1 2) ∧
    ¬ RowsKept t.shared ['m'] 1 (fun _ => pairRow 1 2) := by
  have evaluated : (stepsChecked (System.step handle) (fun _ _ => true)
      (start onlyMain (pairChild 1 2) : Children) (List.replicate 16 0)).map
        (fun t => (t.procs 0).returned) = some true ∧
      handed (childContext [] 1 0 0) ['m'] [['x']] [['y']] (loadPair 1 2) storePair = .ok (pairRow 1 2) := by
    decide +kernel
  obtain ⟨all,given⟩ := evaluated
  obtain ⟨t,run,done⟩ := pairRun all
  have hands := pairHands 1 2 given
  have end_ := runInTurn (by decide) (fun _ _ => pairNetwork 1 2) onlyMainFresh run done
  refine ⟨_,t,run,done,hands,fun kept => ?_⟩
  have same := keptRow end_ (fun _ _ => pairNetwork 1 2) (fun k below => by
    rw [show k = 0 by omega]
    exact hands) kept (show 0 < 1 by decide)
  have uniform := (sectionsSame hands.passed).mp same _ (List.mem_singleton_self _) (.inl rfl)
  have equal : some (Scalar.int 1) = some (.int 2) :=
    uniform _ (List.mem_cons_of_mem _ (List.mem_singleton_self _))
  cases equal

end Autonomizer.RoundTrip
