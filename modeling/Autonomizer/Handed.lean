import Mathlib
import Autonomizer.Widths

/-! The data a child hands to its network and its stores, and the sections of its data
file: each value once, but for the types whose first value is printed twice. -/
namespace Autonomizer.Handed
open CombineLoad (Formed combineLoadCons combineName valuesFrame)
open CPIO (Bytes)
open Data DataFiles FileIO Format PIInc ProgIntel SingleModel Widths

def heldBy (ctx : PIContext) (name : Text) : Except Stop (TypeID × List Scalar) :=
  match ctx.loadMap name with
  | none => .error .null
  | some pDC => do return (pDC.tID,← pDC.values ctx.memory)

def passedTo (ctx : PIContext) : Call → Except Stop (List (TypeID × List Scalar))
  | .piStore _ tID nmemb data => do
      return [(tID,← DataContext.values ⟨tID,nmemb,data,false,[]⟩ ctx.memory)]
  | _ => .ok []

def passedBy (ctx : PIContext) : List Call → Except Stop (List (TypeID × List Scalar))
  | [] => .ok []
  | c :: rest => do
      let own ← passedTo ctx c
      let (ctx,_) ← effectOf ctx c
      return own ++ (← passedBy ctx rest)

/- What the first load holds when the network is called, and what each store is given. -/
structure Row where
  held : TypeID × List Scalar
  passed : List (TypeID × List Scalar)
  deriving DecidableEq

def handed (ctx : PIContext) (m : Text) (loads stores : List Text) (before after : List Call) :
    Except Stop Row := do
  let (ctx,_) ← effects ctx before
  let held ← heldBy ctx (loads.headD [])
  let (ctx,_) ← effectOf ctx (.piNN m .one loads stores)
  return ⟨held,← passedBy ctx after⟩

/- The types of which writeStoreData prints element 0 twice. -/
def doubled (tID : TypeID) : Prop := tID = .uc ∨ tID = .ui ∨ tID = .f

instance (tID : TypeID) : Decidable (doubled tID) := by unfold doubled; infer_instance

def sectionValues (p : TypeID × List Scalar) : List Scalar :=
  if doubled p.1 then p.2.head?.toList ++ p.2 else p.2

/- No block past the next one to be given out, and none at NULL. -/
structure Heap (m : Memory) : Prop where
  formed : Formed m
  null : m.blocks 0 = none

section
variable {m next : Memory} {ctx last : PIContext}

theorem heapPut {p fresh : Pointer} {bytes : Bytes} (heap : Heap m) (some_ : p ≠ 0)
    (later : m.fresh ≤ fresh) (below : p < fresh) :
    Heap ⟨Function.update m.blocks p (some bytes),fresh⟩ := by
  refine ⟨⟨lt_of_lt_of_le heap.formed.1 later,fun q block there => ?_⟩,?_⟩
  · replace there : Function.update m.blocks p (some bytes) q = some block := there
    rw [Function.update_apply] at there
    split at there
    · next same => exact same ▸ below
    · exact lt_of_lt_of_le (heap.formed.2 q block there) later
  · exact (Function.update_of_ne some_.symm ..).trans heap.null

theorem heapMalloc {size : Int} (heap : Heap m) : Heap (m.malloc size).2 := by
  unfold Memory.malloc
  split
  · exact heap
  · exact heapPut heap (Nat.ne_of_gt heap.formed.1) (Nat.le_succ _) (Nat.lt_succ_self _)

theorem heapNew {tID : TypeID} {nmemb : Int} {doAlloc : Bool} {pDC : DataContext}
    (heap : Heap m) (done : DataContext.new m tID nmemb doAlloc = .ok (pDC,next)) : Heap next := by
  simp only [DataContext.new,bind,Except.bind] at done
  split at done
  · split at done <;> try contradiction
    split at done <;> try contradiction
    cases done
    exact heapMalloc heap
  · cases done
    exact heap

theorem heapContext {known : Option DataContext} {tID : TypeID} {nmemb : Int} {doAlloc : Bool}
    {pDC : DataContext} (heap : Heap m)
    (done : contextOf known m tID nmemb doAlloc = .ok (pDC,next)) : Heap next := by
  cases known with
  | some old => cases done; exact heap
  | none => exact heapNew heap done

theorem writeDone {p : Pointer} {offset : Nat} {bytes : Bytes}
    (done : m.write p offset bytes = .ok next) : ∃ block, m.blocks p = some block ∧
      offset + bytes.length ≤ block.length ∧ next = ⟨Function.update m.blocks p
        (some (block.take offset ++ bytes ++ block.drop (offset + bytes.length))),m.fresh⟩ := by
  unfold Memory.write at done
  split at done <;> try contradiction
  next block there =>
  split at done <;> try contradiction
  next fits =>
  cases done
  exact ⟨block,there,fits,rfl⟩

theorem heapWrite {p : Pointer} {offset : Nat} {bytes : Bytes} (heap : Heap m)
    (done : m.write p offset bytes = .ok next) : Heap next := by
  obtain ⟨block,there,_,rfl⟩ := writeDone done
  have some_ : p ≠ 0 := fun null => by
    rw [null,heap.null] at there
    cases there
  exact heapPut heap some_ le_rfl (heap.formed.2 p block there)

theorem setDataDone {pDC set : DataContext} {data : Pointer} (owned : pDC.doAlloc = true)
    (done : pDC.setData m data = .ok (set,next)) : set = pDC ∧ ∃ size bytes,
      getTypeSize pDC.tID = .ok size ∧ m.read data (size * pDC.nmemb) = .ok bytes ∧
      m.write pDC.data 0 bytes = .ok next := by
  simp only [DataContext.setData,owned,if_true,bind,Except.bind] at done
  split at done <;> try contradiction
  split at done <;> try contradiction
  next size typed =>
  split at done <;> try contradiction
  next count counted =>
  split at done <;> try contradiction
  next bytes read =>
  split at done <;> try contradiction
  next written wrote =>
  cases done
  have same : count = size * pDC.nmemb := by
    unfold byteCount at counted
    split at counted
    · cases counted; rfl
    · cases counted
  exact ⟨rfl,size,bytes,typed,same ▸ read,wrote⟩

theorem heapSetData {pDC set : DataContext} {data : Pointer} (heap : Heap m)
    (done : pDC.setData m data = .ok (set,next)) : Heap next := by
  cases owned : pDC.doAlloc with
  | true =>
    obtain ⟨_,_,bytes,_,_,wrote⟩ := setDataDone owned done
    exact heapWrite heap wrote
  | false =>
    simp only [DataContext.setData,owned,Bool.false_eq_true,if_false,bind,Except.bind] at done
    split at done <;> try contradiction
    cases done
    exact heap

theorem storeDone {name : Text} {tID : TypeID} {nmemb : Int} {data : Pointer}
    (done : storeContext ctx name tID nmemb data = .ok last) : ∃ pDC m set next,
      contextOf (ctx.storeMap name) ctx.memory tID nmemb true = .ok (pDC,m) ∧
      pDC.setData m data = .ok (set,next) ∧
      last = { ctx with storeMap := Function.update ctx.storeMap name (some set), memory := next } := by
  simp only [storeContext,bind,Except.bind] at done
  split at done <;> try contradiction
  next pair made =>
  split at done <;> try contradiction
  next pair' filled =>
  cases done
  exact ⟨pair.1,pair.2,pair'.1,pair'.2,made,filled,rfl⟩

theorem loadDone {name : Text} {tID : TypeID} {nmemb : Int} {data : Pointer} {doAlloc : Bool}
    (done : load ctx name tID nmemb data doAlloc = .ok last) : ∃ pDC m set next,
      contextOf (ctx.loadMap name) ctx.memory tID nmemb doAlloc = .ok (pDC,m) ∧
      pDC.setData m data = .ok (set,next) ∧
      last = { ctx with loadMap := Function.update ctx.loadMap name (some set), memory := next } := by
  simp only [load,bind,Except.bind] at done
  split at done <;> try contradiction
  next pair made =>
  split at done <;> try contradiction
  next pair' filled =>
  cases done
  exact ⟨pair.1,pair.2,pair'.1,pair'.2,made,filled,rfl⟩

theorem loadCBDone {name : Text} {tID : TypeID} {nmemb : Int} {cb : Bytes}
    (done : loadCB ctx name tID nmemb cb = .ok last) : ∃ pDC m next,
      contextOf (ctx.loadMap name) ctx.memory tID nmemb true = .ok (pDC,m) ∧
      m.write pDC.data 0 cb = .ok next ∧
      last = { ctx with loadMap := Function.update ctx.loadMap name (some pDC), memory := next } := by
  simp only [loadCB,bind,Except.bind] at done
  split at done <;> try contradiction
  next pair made =>
  split at done <;> try contradiction
  next next filled =>
  cases done
  exact ⟨pair.1,pair.2,next,made,filled,rfl⟩

theorem callKeeps {c : Call} {pieces : List Piece} (plain : isNN c = false) (heap : Heap ctx.memory)
    (done : effectOf ctx c = .ok (last,pieces)) : Heap last.memory ∧
      (∀ name ∉ storeNames [c], last.storeMap name = ctx.storeMap name) ∧
      ((∀ name pDC, ctx.loadMap name = some pDC → pDC.combinedLoad = []) →
        ∀ name pDC, last.loadMap name = some pDC → pDC.combinedLoad = []) := by
  have put {name : Text} {made : DataContext} (own : made.combinedLoad = [])
      (single : ∀ name pDC, ctx.loadMap name = some pDC → pDC.combinedLoad = []) (other : Text)
      (pDC : DataContext)
      (found : Function.update ctx.loadMap name (some made) other = some pDC) :
      pDC.combinedLoad = [] := by
    rw [Function.update_apply] at found
    split at found
    · cases found; exact own
    · exact single other pDC found
  have plainContext {name : Text} {m : Memory} {tID : TypeID} {nmemb : Int} {doAlloc : Bool}
      {pDC : DataContext} (single : ∀ name pDC, ctx.loadMap name = some pDC → pDC.combinedLoad = [])
      (made : contextOf (ctx.loadMap name) ctx.memory tID nmemb doAlloc = .ok (pDC,m)) :
      pDC.combinedLoad = [] := by
    rcases contextOfShape made with known | ⟨_,shape⟩
    · exact single name pDC known
    · exact congrArg DataContext.combinedLoad shape
  cases c with
  | piLoad name tID nmemb data doAlloc =>
    simp only [effectOf,bind,Except.bind] at done
    split at done <;> try contradiction
    next loaded taken =>
    cases done
    obtain ⟨pDC,m,set,next,made,filled,rfl⟩ := loadDone taken
    refine ⟨heapSetData (heapContext heap made) filled,fun _ _ => rfl,fun single => put ?_ single⟩
    rw [(setDataShape filled).2]
    exact plainContext single made
  | piLoadCB name tID nmemb cb =>
    simp only [effectOf,bind,Except.bind] at done
    split at done <;> try contradiction
    next loaded taken =>
    cases done
    obtain ⟨pDC,m,next,made,filled,rfl⟩ := loadCBDone taken
    exact ⟨heapWrite (heapContext heap made) filled,fun _ _ => rfl,
      fun single => put (plainContext single made) single⟩
  | piNN modelName stg loads stores => cases plain
  | piStore name tID nmemb data =>
    obtain ⟨pDC,m,set,next,made,filled,rfl⟩ := storeDone (storePiece done).1
    refine ⟨heapSetData (heapContext heap made) filled,fun other apart => ?_,fun single => single⟩
    exact Function.update_of_ne (fun same => apart (List.mem_singleton.mpr same)) ..
  | poke data bytes =>
    simp only [effectOf] at done
    split at done <;> try contradiction
    next some_ =>
    cases done
    exact ⟨heapPut heap some_ (le_max_left ..) (lt_of_lt_of_le (Nat.lt_succ_self data)
      (le_max_right ..)),fun _ _ => rfl,fun single => single⟩

/- What combining leaves alone: entries that were there, and blocks given out before. -/
structure Combining (base ctx : PIContext) : Prop where
  heap : Heap ctx.memory
  later : base.memory.fresh ≤ ctx.memory.fresh
  kept : ∀ name pDC, base.loadMap name = some pDC → ctx.loadMap name = some pDC
  blocks : ∀ p < base.memory.fresh, ctx.memory.blocks p = base.memory.blocks p
  own : ∀ name pDC, ctx.loadMap name = some pDC → pDC.combinedLoad ≠ [] →
    pDC.data = 0 ∨ base.memory.fresh ≤ pDC.data
  stores : ctx.storeMap = base.storeMap

theorem combinePartsKeeps {loadMap : Text → Option DataContext} {data : Pointer} {base : Pointer}
    {parts : List Text} {pTrg : Nat} (heap : Heap m) (apart : data = 0 ∨ base ≤ data)
    (done : combineParts loadMap data parts pTrg m = .ok next) :
    Heap next ∧ next.fresh = m.fresh ∧ ∀ p < base, next.blocks p = m.blocks p := by
  induction parts generalizing pTrg m with
  | nil => cases done; exact ⟨heap,rfl,fun _ _ => rfl⟩
  | cons part rest ih =>
    simp only [combineParts] at done
    split at done <;> try contradiction
    split at done <;> try contradiction
    simp only [bind,Except.bind] at done
    split at done <;> try contradiction
    split at done <;> try contradiction
    next mid wrote =>
    obtain ⟨heap',fresh,blocks⟩ := ih (heapWrite heap wrote) done
    obtain ⟨block,there,_,rfl⟩ := writeDone wrote
    refine ⟨heap',fresh,fun p below => (blocks p below).trans (Function.update_of_ne ?_ ..)⟩
    -- the block written to was not at NULL
    rcases apart with null | past
    · rw [null,heap.null] at there
      cases there
    · exact Nat.ne_of_lt (lt_of_lt_of_le below past)

theorem newData {tID : TypeID} {nmemb : Int} {pDC : DataContext}
    (done : DataContext.new m tID nmemb true = .ok (pDC,next)) :
    (pDC.data = 0 ∨ pDC.data = m.fresh) ∧ m.fresh ≤ next.fresh ∧
      ∀ p < m.fresh, next.blocks p = m.blocks p := by
  simp only [DataContext.new,if_true,bind,Except.bind] at done
  split at done <;> try contradiction
  split at done <;> try contradiction
  cases done
  unfold Memory.malloc
  split
  · exact ⟨.inl rfl,le_rfl,fun _ _ => rfl⟩
  · exact ⟨.inr rfl,Nat.le_succ _,fun p below => Function.update_of_ne (Nat.ne_of_lt below) ..⟩

theorem combinedContextKeeps {base : PIContext} {name : Text} {pDC : DataContext}
    (combining : Combining base ctx) (done : combinedContext ctx name = .ok (pDC,last)) :
    Combining base last ∧ last.loadMap name = some pDC := by
  simp only [combinedContext,bind,Except.bind] at done
  split at done
  · next known => cases done; exact ⟨combining,known⟩
  · next absent =>
    split at done <;> try contradiction
    split at done <;> try contradiction
    split at done <;> try contradiction
    next pair made =>
    obtain ⟨fresh,m⟩ := pair
    cases done
    obtain ⟨data,later,blocks⟩ := newData made
    refine ⟨⟨heapNew combining.heap made,combining.later.trans later,fun other pOther known => ?_,
      fun p below => (blocks p (lt_of_lt_of_le below combining.later)).trans (combining.blocks p below),
      fun other pOther found several => ?_,combining.stores⟩,Function.update_self ..⟩
    · have apart : other ≠ name := fun same => by
        rw [same] at known
        rw [combining.kept name pOther known] at absent
        cases absent
      exact (Function.update_of_ne apart ..).trans (combining.kept other pOther known)
    · replace found : Function.update ctx.loadMap name _ other = some pOther := found
      rw [Function.update_apply] at found
      split at found
      · cases found
        rcases data with null | next
        · exact .inl null
        · exact .inr (combining.later.trans (Nat.le_of_eq next.symm))
      · exact combining.own other pOther found several

theorem combineLoadKeeps {base : PIContext} {names : List Text} (combining : Combining base ctx)
    (done : combineLoad ctx names = .ok last) : Combining base last := by
  induction names generalizing ctx with
  | nil => cases done; exact combining
  | cons name rest ih =>
    rw [combineLoadCons] at done
    split at done
    · simp only [combineName,bind,Except.bind] at done
      split at done <;> try contradiction
      next mid turn =>
      split at turn <;> try contradiction
      next pair made =>
      obtain ⟨pCDC,ctx₁⟩ := pair
      dsimp only at turn
      split at turn <;> try contradiction
      next several =>
      split at turn <;> try contradiction
      next m filled =>
      cases turn
      obtain ⟨entered,known⟩ := combinedContextKeeps combining made
      have whole : pCDC.combinedLoad ≠ [] := fun none => by simp [none] at several
      obtain ⟨heap,fresh,blocks⟩ :=
        combinePartsKeeps entered.heap (entered.own name pCDC known whole) filled
      have copied : Combining base { ctx₁ with memory := m } :=
        ⟨heap,fresh ▸ entered.later,entered.kept,
          fun p below => (blocks p below).trans (entered.blocks p below),entered.own,entered.stores⟩
      exact ih copied done
    · exact ih combining done

theorem readDone {p : Pointer} {size : Int} {bytes : Bytes} (done : m.read p size = .ok bytes) :
    ∃ block, m.blocks p = some block ∧ size ≤ block.length ∧ bytes = block.take size.toNat := by
  unfold Memory.read at done
  split at done <;> try contradiction
  next block there =>
  split at done <;> try contradiction
  next fits =>
  cases done
  exact ⟨block,there,fits,rfl⟩

theorem valuesDone {pDC : DataContext} {values : List Scalar} (got : pDC.values m = .ok values)
    (some_ : values ≠ []) : ∃ size bytes, getTypeSize pDC.tID = .ok size ∧ 0 < pDC.nmemb ∧
      m.read pDC.data (size * pDC.nmemb) = .ok bytes ∧
      values = elements pDC.tID size pDC.nmemb.toNat bytes := by
  simp only [DataContext.values,bind,Except.bind] at got
  split at got <;> try contradiction
  next size typed =>
  split at got
  · cases got
    exact absurd rfl some_
  · next positive =>
    split at got <;> try contradiction
    next bytes read =>
    cases got
    exact ⟨size,bytes,typed,not_le.mp positive,read,rfl⟩

theorem heldKept {names : List Text} {name : Text} {p : TypeID × List Scalar} {pDC : DataContext}
    {values : List Scalar} (heap : Heap ctx.memory)
    (single : ∀ name pDC, ctx.loadMap name = some pDC → pDC.combinedLoad = [])
    (held : heldBy ctx name = .ok p) (some_ : p.2 ≠ []) (done : combineLoad ctx names = .ok last)
    (known : last.loadMap name = some pDC) (got : loadValues pDC last.memory = .ok values) :
    p = (pDC.tID,values) := by
  have begins : Combining ctx ctx := ⟨heap,le_rfl,fun _ _ h => h,fun _ _ => rfl,
    fun other pOther found several => absurd (single other pOther found) several,rfl⟩
  have combining := combineLoadKeeps begins done
  unfold heldBy at held
  split at held <;> try contradiction
  next pOwn found =>
  cases known.symm.trans (combining.kept name pOwn found)
  simp only [bind,Except.bind] at held
  split at held <;> try contradiction
  next own read =>
  cases held
  obtain ⟨size,bytes,_,_,inside,_⟩ := valuesDone read some_
  obtain ⟨block,there,_,_⟩ := readDone inside
  have same := valuesFrame (combining.blocks _ (heap.formed.2 _ block there))
  unfold loadValues at got
  split at got <;> try contradiction
  rw [same,read] at got
  cases got
  rfl

theorem elementsHead {tID : TypeID} {size n : Nat} {bytes : Bytes} (some_ : 0 < n) :
    (elements tID size n bytes).head? = some (scalar tID (bytes.take size)) := by
  obtain ⟨k,rfl⟩ := Nat.exists_eq_succ_of_ne_zero (Nat.ne_of_gt some_)
  simp [elements,List.range_succ_eq_map]

theorem copyValues {tID : TypeID} {nmemb : Int} {size : Nat} {blocks : Pointer → Option Bytes}
    {p fresh : Pointer} {bytes : Bytes} (typed : getTypeSize tID = .ok size) (positive : 0 < nmemb)
    (length : (bytes.length : Int) = size * nmemb) :
    DataContext.values ⟨tID,nmemb,p,true,[]⟩ ⟨Function.update blocks p (some bytes),fresh⟩ =
      .ok (elements tID size nmemb.toNat bytes) := by
  have held : Memory.read ⟨Function.update blocks p (some bytes),fresh⟩ p (size * nmemb) =
      .ok (bytes.take (size * nmemb).toNat) := readFits (Function.update_self ..) length.ge
  have all : bytes.take (size * nmemb).toNat = bytes := List.take_of_length_le (by omega)
  simp only [DataContext.values,typed,bind,Except.bind,if_neg (not_le.mpr positive),held,all]
  rfl

theorem copyFirst {tID : TypeID} {nmemb : Int} {size : Nat} {blocks : Pointer → Option Bytes}
    {p fresh : Pointer} {bytes : Bytes} {v : Scalar} (typed : getTypeSize tID = .ok size)
    (first : DataContext.first ⟨tID,nmemb,p,true,[]⟩
      ⟨Function.update blocks p (some bytes),fresh⟩ = .ok v) : v = scalar tID (bytes.take size) := by
  simp only [DataContext.first,typed,bind,Except.bind] at first
  split at first <;> try contradiction
  next taken got =>
  cases first
  obtain ⟨block,there,_,rfl⟩ := readDone got
  replace there : Function.update blocks p (some bytes) p = some block := there
  rw [Function.update_self] at there
  cases there
  rw [Int.toNat_natCast]

theorem storeCopies {name : Text} {tID : TypeID} {nmemb : Int} {data : Pointer}
    {values : List Scalar} (heap : Heap ctx.memory) (absent : ctx.storeMap name = none)
    (passed : DataContext.values ⟨tID,nmemb,data,false,[]⟩ ctx.memory = .ok values)
    (some_ : values ≠ []) (done : storeContext ctx name tID nmemb data = .ok last) :
    ∃ pDC, last.storeMap name = some pDC ∧ pDC.tID = tID ∧ pDC.nmemb = nmemb ∧
      pDC.values last.memory = .ok values ∧
      ∀ v, pDC.first last.memory = .ok v → values.head? = some v := by
  obtain ⟨pDC,m,set,next,made,filled,rfl⟩ := storeDone done
  obtain ⟨size,bytes,typed,positive,read,rfl⟩ := valuesDone passed some_
  dsimp only at typed positive read
  obtain ⟨block,there,fits,whole⟩ := readDone read
  rw [absent] at made
  -- the new block is none of those before
  have count : 0 ≤ (size : Int) * nmemb := mul_nonneg (Int.natCast_nonneg _) positive.le
  have new : pDC = ⟨tID,nmemb,ctx.memory.fresh,true,[]⟩ ∧ m = ⟨Function.update ctx.memory.blocks
      ctx.memory.fresh (some (List.replicate (size * nmemb).toNat 0)),ctx.memory.fresh + 1⟩ := by
    simp only [contextOf,DataContext.new,if_true,typed,byteCount,bind,Except.bind] at made
    split at made <;> try contradiction
    next total counted =>
    split at counted <;> try contradiction
    cases counted
    rw [Memory.malloc,if_neg (not_lt.mpr count)] at made
    cases made
    exact ⟨rfl,rfl⟩
  obtain ⟨rfl,rfl⟩ := new
  obtain ⟨rfl,size',bytes',typed',read',wrote⟩ := setDataDone rfl filled
  cases typed.symm.trans typed'
  have apart : data ≠ ctx.memory.fresh := Nat.ne_of_lt (heap.formed.2 data block there)
  have same : bytes' = bytes := by
    obtain ⟨block',there',_,whole'⟩ := readDone read'
    replace there' : Function.update ctx.memory.blocks _ _ data = some block' := there'
    rw [Function.update_of_ne apart,there] at there'
    cases there'
    rw [whole,whole']
  subst same
  have length : bytes'.length = (size * nmemb).toNat := by
    rw [whole,List.length_take]
    omega
  obtain ⟨zeros,zeroed,_,rfl⟩ := writeDone wrote
  replace zeroed : Function.update ctx.memory.blocks ctx.memory.fresh _ ctx.memory.fresh =
    some zeros := zeroed
  rw [Function.update_self] at zeroed
  cases zeroed
  have copy : List.take 0 (List.replicate (size * nmemb).toNat (0 : UInt8)) ++ bytes' ++
      (List.replicate (size * nmemb).toNat 0).drop (0 + bytes'.length) = bytes' := by
    rw [List.take_zero,List.nil_append,List.drop_eq_nil_of_le (by rw [List.length_replicate]; omega),
      List.append_nil]
  rw [copy]
  refine ⟨_,Function.update_self ..,rfl,rfl,copyValues typed positive (by omega),fun v first => ?_⟩
  rw [copyFirst typed first]
  exact elementsHead (Int.pos_iff_toNat_pos.mp positive)

theorem storeValuesSection {pDC : DataContext} {own values : List Scalar}
    (got : storeValues pDC m = .ok values) (whole : pDC.values m = .ok own)
    (head : ∀ v, pDC.first m = .ok v → own.head? = some v) : values = sectionValues (pDC.tID,own) := by
  have twice (done : (do let first ← pDC.first m; let values ← pDC.values m; return first :: values :
      Except Stop (List Scalar)) = .ok values) : values = own.head?.toList ++ own := by
    simp only [bind,Except.bind,whole] at done
    split at done <;> try contradiction
    next first found =>
    cases done
    rw [head first found]
    rfl
  have once (done : pDC.values m = .ok values) : values = own := by
    rw [whole] at done
    cases done
    rfl
  unfold storeValues at got
  unfold sectionValues
  cases typed : pDC.tID <;> rw [typed] at got <;>
    first
    | exact once got
    | exact twice got
    | cases got

def SectionOf (names : List Text) (out : Piece) (p : TypeID × List Scalar) : Prop :=
  ∃ name nmemb, out = .output name nmemb (sectionValues p) ∧ nmemb.toNat = p.2.length ∧ name ∈ names

theorem passedCons {c : Call} {rest : List Call} {ps : List (TypeID × List Scalar)}
    (passed : passedBy ctx (c :: rest) = .ok ps) : ∃ own mid pieces more, passedTo ctx c = .ok own ∧
      effectOf ctx c = .ok (mid,pieces) ∧ passedBy mid rest = .ok more ∧ ps = own ++ more := by
  simp only [passedBy,bind,Except.bind] at passed
  split at passed <;> try contradiction
  next own first =>
  split at passed <;> try contradiction
  next pair taken =>
  split at passed <;> try contradiction
  next more rested =>
  cases passed
  exact ⟨own,pair.1,pair.2,more,first,taken,rested,rfl⟩

theorem storesPassed {after : List Call} {outs : List Piece} {ps : List (TypeID × List Scalar)}
    {names : List Text} (heap : Heap ctx.memory) (plain : ∀ c ∈ after, isNN c = false)
    (once : (storeNames after).Nodup) (among : ∀ name ∈ storeNames after, name ∈ names)
    (unstored : ∀ name ∈ storeNames after, ctx.storeMap name = none)
    (passed : passedBy ctx after = .ok ps) (some_ : ∀ p ∈ ps, p.2 ≠ [])
    (done : effects ctx after = .ok (last,outs)) : List.Forall₂ (SectionOf names) outs ps := by
  induction after generalizing ctx outs ps with
  | nil => cases passed; cases done; exact .nil
  | cons c rest ih =>
    obtain ⟨own,mid,pieces,more,first,taken,rested,rfl⟩ := passedCons passed
    obtain ⟨mid',early,late,taken',later,rfl⟩ := effectsCons done
    cases taken.symm.trans taken'
    obtain ⟨heap',others,_⟩ := callKeeps (plain c List.mem_cons_self) heap taken
    have split : storeNames ([c] ++ rest) = storeNames [c] ++ storeNames rest :=
      List.filterMap_append
    rw [List.singleton_append] at split
    rw [split] at once among unstored
    obtain ⟨_,once',apart⟩ := List.nodup_append'.mp once
    have tail : List.Forall₂ (SectionOf names) late more := by
      refine ih heap' (fun d inside => plain d (List.mem_cons_of_mem c inside)) once'
        (fun name inside => among name (List.mem_append_right _ inside)) (fun name inside => ?_) rested
        (fun p inside => some_ p (List.mem_append_right _ inside)) later
      rw [others name (fun here => apart here inside)]
      exact unstored name (List.mem_append_right _ inside)
    cases c with
    | piStore name tID nmemb data =>
      simp only [passedTo,bind,Except.bind] at first
      split at first <;> try contradiction
      next values given =>
      cases first
      have here : name ∈ storeNames [.piStore name tID nmemb data] := List.mem_singleton_self name
      obtain ⟨stored,pDC,printed,known,got,rfl⟩ := storePiece taken
      obtain ⟨pDC',known',rfl,rfl,whole,head⟩ := storeCopies heap
        (unstored name (List.mem_append_left _ here)) given (some_ _ List.mem_cons_self) stored
      cases known.symm.trans known'
      refine .cons ⟨name,pDC.nmemb,?_,(valuesLength whole).symm,
        among name (List.mem_append_left _ here)⟩ tail
      rw [storeValuesSection got whole head]
    | piNN modelName stg loads stores => exact nomatch plain _ List.mem_cons_self
    | piLoad name tID nmemb data doAlloc =>
      cases first
      cases quietPieces ⟨rfl,rfl⟩ taken
      exact tail
    | piLoadCB name tID nmemb cb =>
      cases first
      cases quietPieces ⟨rfl,rfl⟩ taken
      exact tail
    | poke data bytes =>
      cases first
      cases quietPieces ⟨rfl,rfl⟩ taken
      exact tail

end

end Autonomizer.Handed
