import Mathlib
import Autonomizer.Footprint
import Autonomizer.Handed
import Autonomizer.Outcome

/-! What a load or store name holds after each call on it. -/
namespace Autonomizer.LastWins
open CPIO (Bytes)
open CombineLoad (combineLoadCons combineName)
open Data DataFiles FileIO FileSystem Footprint Format Handed Outcome PIInc Process ProgIntel SingleModel
open Widths

/- piGetData: a load of the name before a store. -/
def piGetData (ctx : PIContext) (name : Text) : Except Stop (Int × Pointer) :=
  match ctx.loadMap name with
  | some pDC => .ok (pDC.nmemb,pDC.data)
  | none => match ctx.storeMap name with
    | some pDC => .ok (pDC.nmemb,pDC.data)
    | none => .error (.failed "Cannot get data with name" [name])

def takesData (status : Status) : Prop :=
  status = .sprod ∨ status = .rprod ∨ status = .train ∨ status = .test

structure Begun (ctx : PIContext) : Prop where
  status : takesData ctx.status
  heap : Heap ctx.memory
  loads : ∀ name, ctx.loadMap name = none
  stores : ctx.status = .sprod → ∀ name, ctx.storeMap name = none

/- The contexts of a program's data. -/
def Entry (ctx : PIContext) (pDC : DataContext) : Prop :=
  (∃ name, ctx.loadMap name = some pDC) ∨
    ctx.status = .sprod ∧ ∃ name, ctx.storeMap name = some pDC

/- Every load copies its data, networks and stores are those of a supervised production,
and the program does not resize the block of a context. -/
def Allowed (ctx : PIContext) : Call → Prop
  | .piLoad _ _ nmemb _ doAlloc => doAlloc = true ∧ 1 ≤ nmemb
  | .piLoadCB _ _ nmemb _ => 1 ≤ nmemb
  | .piNN .. => ctx.status = .sprod
  | .piStore _ _ nmemb _ => ctx.status = .sprod ∧ 1 ≤ nmemb
  | .poke data bytes => ∀ pDC block, Entry ctx pDC → pDC.data = data →
      ctx.memory.blocks data = some block → bytes.length = block.length

inductive Reached (begin_ : PIContext) : PIContext → Prop where
  | begin : Reached begin_ begin_
  | call {ctx next : PIContext} {c : Call} {log : Log Op Reply} (reached : Reached begin_ ctx)
      (allowed : Allowed ctx c) (ran : Ran (ProgIntel.call ctx c) log next) : Reached begin_ next

/- The context has the type and the length of the call and the values at its pointer, and
piGetData returns it. -/
structure Holds (ctx next : PIContext) (name : Text) (tID : TypeID) (nmemb : Int) (data : Pointer)
    (pDC : DataContext) (values : List Scalar) : Prop where
  ofType : pDC.tID = tID
  ofLength : pDC.nmemb = nmemb
  passed : DataContext.values ⟨tID,nmemb,data,false,[]⟩ ctx.memory = .ok values
  count : (values.length : Int) = nmemb
  held : pDC.values next.memory = .ok values
  got : piGetData next name = .ok (nmemb,pDC.data)

def Puts (texts : List Text) : Op → Prop
  | .write _ text => text ∈ texts
  | .append _ text => text ∈ texts
  | _ => True

def Called (op : Op) (log : Log Op Reply) : Prop := ∃ r, (op,r) ∈ log

def storeDirs (modelName : Text) (stg : NNStg) (loadNames : List Text) (dataDir : Text) :
    List Path :=
  match stg with
  | .one => [[piDir,modelName,dataDir]]
  | .ens => loadNames.map fun loadName => [piDir,modelName,loadName,dataDir]

/- The file of a load can be written, and whoever returns from it has put the values there. -/
structure LoadFile (ctx : PIContext) (name : Text) (nmemb : Int) (values : List Scalar) : Prop where
  only : ∀ dir dataIdx, Only (Puts [loadText name nmemb values]) (writeLoadFile ctx dir name dataIdx)
  put : ∀ dir dataIdx log, Ran (writeLoadFile ctx dir name dataIdx) log () →
    Called (.write (dir ++ [decimal dataIdx]) (loadText name nmemb values)) log
  returns : ∀ dir dataIdx, ∃ log, Ran (writeLoadFile ctx dir name dataIdx) log ()

/- What a store that returns has called: the values are added to each data file of the
network, and in the first child the record to the store information. -/
structure StoreFiles (ctx : PIContext) (name : Text) (tID : TypeID) (nmemb : Int)
    (values : List Scalar) (log : Log Op Reply) : Prop where
  only : ∀ e ∈ log, Puts [storeText name nmemb values,storeRecord name tID nmemb] e.1
  put : ∀ m stg loads, ctx.storeModelMap name = some ((m,stg),loads) →
    ∀ dataDir dataIdx, dataPlace ctx = some (dataDir,dataIdx) → ∀ dir ∈ storeDirs m stg loads dataDir,
      Called (.append (dir ++ [decimal dataIdx]) (storeText name nmemb values)) log
  recorded : ∀ m stg loads, ctx.storeModelMap name = some ((m,stg),loads) → ctx.trainIt = 0 →
    Called (.append (storePath m stg) (storeRecord name tID nmemb)) log ∨
      Called (.write (storePath m stg) (storeRecord name tID nmemb)) log

/- The last load or store of a name is what the name holds. -/
def Wins (ctx : PIContext) : Call → Prop
  | .piLoad name tID nmemb data doAlloc => ∃ next pDC values,
      load ctx name tID nmemb data doAlloc = .ok next ∧ next.loadMap name = some pDC ∧
      Holds ctx next name tID nmemb data pDC values ∧ LoadFile next name nmemb values
  | .piStore name tID nmemb data => ∃ next pDC values,
      storeContext ctx name tID nmemb data = .ok next ∧ next.storeMap name = some pDC ∧
      Holds ctx next name tID nmemb data pDC values ∧
      (∀ log last, Ran (store ctx name tID nmemb data) log last →
        last = next ∧ StoreFiles ctx name tID nmemb values log) ∧
      ((ctx.storeModelMap name).isSome → ∃ log, Ran (store ctx name tID nmemb data) log next)
  | _ => True

structure Given (m : Memory) (tID : TypeID) (nmemb : Int) (data : Pointer) : Prop where
  array : ∃ values, DataContext.values ⟨tID,nmemb,data,false,[]⟩ m = .ok values
  small : ∀ size, getTypeSize tID = .ok size → size * nmemb < 2^31

/- It has the type and the length that the name was first used with. -/
structure Fits (known : Option DataContext) (m : Memory) (tID : TypeID) (nmemb : Int)
    (data : Pointer) : Prop extends Given m tID nmemb data where
  same : ∀ pDC, known = some pDC → pDC.tID = tID ∧ pDC.nmemb = nmemb

/- The call repeats the first use of its name. A store's name is none of the loads, and its
type is none of those whose first value is printed twice. -/
def Repeats (ctx : PIContext) : Call → Prop
  | .piLoad name tID nmemb data _ => Fits (ctx.loadMap name) ctx.memory tID nmemb data
  | .piStore name tID nmemb data => Fits (ctx.storeMap name) ctx.memory tID nmemb data ∧
      ctx.loadMap name = none ∧ ¬ doubled tID
  | _ => True

def Sound (m : Memory) (pDC : DataContext) : Prop :=
  pDC.doAlloc = true ∧ 0 ≤ pDC.nmemb ∧ ∃ size block, getTypeSize pDC.tID = .ok size ∧
    size * pDC.nmemb < 2^31 ∧ m.blocks pDC.data = some block ∧
    (block.length : Int) = size * pDC.nmemb

structure Kept (ctx : PIContext) : Prop where
  heap : Heap ctx.memory
  sound : ∀ pDC, Entry ctx pDC → Sound ctx.memory pDC

def Grown (m next : Memory) : Prop :=
  ∀ p block, m.blocks p = some block → ∃ after, next.blocks p = some after ∧
    after.length = block.length

section
variable {m next : Memory} {ctx last : PIContext}

theorem grownTrans {last : Memory} (first : Grown m next) (second : Grown next last) :
    Grown m last := by
  intro p block there
  obtain ⟨mid,there,early⟩ := first p block there
  obtain ⟨after,there,late⟩ := second p mid there
  exact ⟨after,there,late.trans early⟩

theorem soundGrown {pDC : DataContext} (sound : Sound m pDC) (grown : Grown m next) :
    Sound next pDC := by
  obtain ⟨owned,count,size,block,typed,small,there,length⟩ := sound
  obtain ⟨after,there,same⟩ := grown _ block there
  exact ⟨owned,count,size,after,typed,small,there,same ▸ length⟩

theorem writeGrown {p : Pointer} {offset : Nat} {bytes : Bytes}
    (done : m.write p offset bytes = .ok next) : Grown m next := by
  obtain ⟨block,there,fits,rfl⟩ := writeDone done
  intro q old found
  by_cases same : q = p
  · cases same
    cases there.symm.trans found
    exact ⟨_,Function.update_self ..,writtenLength fits⟩
  · exact ⟨old,(Function.update_of_ne same ..).trans found,rfl⟩

theorem newDone {tID : TypeID} {nmemb : Int} {pDC : DataContext} (heap : Heap m) (count : 0 ≤ nmemb)
    (done : DataContext.new m tID nmemb true = .ok (pDC,next)) :
    pDC = ⟨tID,nmemb,m.fresh,true,[]⟩ ∧ Sound next pDC ∧ Heap next ∧
      (∀ p block, m.blocks p = some block → next.blocks p = some block) := by
  have heap' := heapNew heap done
  simp only [DataContext.new,if_true,byteCount,bind,Except.bind] at done
  split at done <;> try contradiction
  next size typed =>
  split at done <;> try contradiction
  next total counted =>
  split at counted <;> try contradiction
  next range =>
  cases counted
  have positive : 0 ≤ (size : Int) * nmemb := mul_nonneg (Int.natCast_nonneg _) count
  rw [Memory.malloc,if_neg (not_lt.mpr positive)] at done
  cases done
  refine ⟨rfl,⟨rfl,count,size,_,typed,range.2,Function.update_self ..,?_⟩,heap',fun p block there => ?_⟩
  · rw [List.length_replicate]
    exact Int.toNat_of_nonneg positive
  · exact (Function.update_of_ne (Nat.ne_of_lt (heap.formed.2 p block there)) ..).trans there

theorem newGrown (kept : ∀ p block, m.blocks p = some block → next.blocks p = some block) :
    Grown m next := fun p block there => ⟨block,kept p block there,rfl⟩

theorem contextSound {known : Option DataContext} {tID : TypeID} {nmemb : Int} {pDC : DataContext}
    (heap : Heap m) (count : 0 ≤ nmemb) (sound : ∀ old, known = some old → Sound m old)
    (done : contextOf known m tID nmemb true = .ok (pDC,next)) :
    Sound next pDC ∧ Heap next ∧ Grown m next := by
  cases known with
  | some old => cases done; exact ⟨sound pDC rfl,heap,newGrown (fun _ _ there => there)⟩
  | none =>
    obtain ⟨_,made,heap',same⟩ := newDone heap count done
    exact ⟨made,heap',newGrown same⟩

theorem keptWith {pDC : DataContext} (kept : Kept ctx) (heap : Heap last.memory)
    (grown : Grown ctx.memory last.memory) (sound : Sound last.memory pDC)
    (entries : ∀ other, Entry last other → other = pDC ∨ Entry ctx other) : Kept last := by
  refine ⟨heap,fun other entry => ?_⟩
  rcases entries other entry with rfl | old
  · exact sound
  · exact soundGrown (kept.sound other old) grown

theorem putLoadEntry {name : Text} {pDC : DataContext} {m : Memory} (other : DataContext)
    (entry : Entry { ctx with loadMap := Function.update ctx.loadMap name (some pDC), memory := m }
      other) : other = pDC ∨ Entry ctx other := by
  rcases entry with ⟨n,found⟩ | ⟨sprod,n,found⟩
  · replace found : Function.update ctx.loadMap name (some pDC) n = some other := found
    rw [Function.update_apply] at found
    split at found
    · cases found; exact .inl rfl
    · exact .inr (.inl ⟨n,found⟩)
  · exact .inr (.inr ⟨sprod,n,found⟩)

theorem putStoreEntry {name : Text} {pDC : DataContext} {m : Memory} (other : DataContext)
    (entry : Entry { ctx with storeMap := Function.update ctx.storeMap name (some pDC), memory := m }
      other) : other = pDC ∨ Entry ctx other := by
  rcases entry with ⟨n,found⟩ | ⟨sprod,n,found⟩
  · exact .inr (.inl ⟨n,found⟩)
  · replace found : Function.update ctx.storeMap name (some pDC) n = some other := found
    rw [Function.update_apply] at found
    split at found
    · cases found; exact .inl rfl
    · exact .inr (.inr ⟨sprod,n,found⟩)

theorem setDataKeeps {pDC set : DataContext} {data : Pointer} (heap : Heap m) (sound : Sound m pDC)
    (done : pDC.setData m data = .ok (set,next)) : Sound next set ∧ Heap next ∧ Grown m next := by
  obtain ⟨rfl,size,bytes,typed,read,wrote⟩ := setDataDone sound.1 done
  exact ⟨soundGrown sound (writeGrown wrote),heapWrite heap wrote,writeGrown wrote⟩

theorem loadKept {name : Text} {tID : TypeID} {nmemb : Int} {data : Pointer} (kept : Kept ctx)
    (count : 0 ≤ nmemb) (done : load ctx name tID nmemb data true = .ok last) : Kept last := by
  obtain ⟨pDC,m,set,next,made,filled,rfl⟩ := loadDone done
  obtain ⟨sound,heap,grown⟩ := contextSound kept.heap count
    (fun old known => kept.sound old (.inl ⟨name,known⟩)) made
  obtain ⟨sound',heap',grown'⟩ := setDataKeeps heap sound filled
  exact keptWith kept heap' (grownTrans grown grown') sound' putLoadEntry

theorem loadCBKept {name : Text} {tID : TypeID} {nmemb : Int} {cb : Bytes} (kept : Kept ctx)
    (count : 0 ≤ nmemb) (done : loadCB ctx name tID nmemb cb = .ok last) : Kept last := by
  obtain ⟨pDC,m,next,made,filled,rfl⟩ := loadCBDone done
  obtain ⟨sound,heap,grown⟩ := contextSound kept.heap count
    (fun old known => kept.sound old (.inl ⟨name,known⟩)) made
  exact keptWith kept (heapWrite heap filled) (grownTrans grown (writeGrown filled))
    (soundGrown sound (writeGrown filled)) putLoadEntry

theorem storeKept {name : Text} {tID : TypeID} {nmemb : Int} {data : Pointer} (kept : Kept ctx)
    (sprod : ctx.status = .sprod) (count : 0 ≤ nmemb)
    (done : storeContext ctx name tID nmemb data = .ok last) : Kept last := by
  obtain ⟨pDC,m,set,next,made,filled,rfl⟩ := storeDone done
  obtain ⟨sound,heap,grown⟩ := contextSound kept.heap count
    (fun old known => kept.sound old (.inr ⟨sprod,name,known⟩)) made
  obtain ⟨sound',heap',grown'⟩ := setDataKeeps heap sound filled
  exact keptWith kept heap' (grownTrans grown grown') sound' putStoreEntry

theorem pokeKept {data : Pointer} {bytes : Bytes} (kept : Kept ctx) (some_ : data ≠ 0)
    (allowed : Allowed ctx (.poke data bytes)) : Kept (poke ctx data bytes) := by
  refine ⟨heapPut kept.heap some_ (le_max_left ..) (lt_of_lt_of_le (Nat.lt_succ_self data)
    (le_max_right ..)),fun pDC entry => ?_⟩
  replace entry : Entry ctx pDC := entry
  obtain ⟨owned,count,size,block,typed,small,there,length⟩ := kept.sound pDC entry
  by_cases same : pDC.data = data
  · refine ⟨owned,count,size,bytes,typed,small,?_,?_⟩
    · rw [same]
      exact Function.update_self ..
    · rw [allowed pDC block entry same (same ▸ there)]
      exact length
  · exact ⟨owned,count,size,block,typed,small,(Function.update_of_ne same ..).trans there,length⟩

theorem combinedNmembNonneg {parts : List Text} {nmemb total : Int} (kept : Kept ctx)
    (count : 0 ≤ nmemb) (done : combinedNmemb ctx parts nmemb = .ok total) : 0 ≤ total := by
  induction parts generalizing nmemb with
  | nil => cases done; exact count
  | cons part rest ih =>
    simp only [combinedNmemb] at done
    split at done <;> try contradiction
    next pDC known =>
    split at done <;> try contradiction
    exact ih (add_nonneg count (kept.sound pDC (.inl ⟨part,known⟩)).2.1) done

theorem combinedContextKept {name : Text} {pDC : DataContext} (kept : Kept ctx)
    (done : combinedContext ctx name = .ok (pDC,last)) : Kept last ∧ last.status = ctx.status := by
  simp only [combinedContext,bind,Except.bind] at done
  split at done
  · cases done
    exact ⟨kept,rfl⟩
  · split at done <;> try contradiction
    split at done <;> try contradiction
    next nmemb summed =>
    split at done <;> try contradiction
    next pair made =>
    obtain ⟨fresh,m⟩ := pair
    cases done
    obtain ⟨_,sound,heap,same⟩ :=
      newDone kept.heap (combinedNmembNonneg kept le_rfl summed) made
    have combined : Sound m { fresh with combinedLoad := tokens name } := sound
    exact ⟨keptWith kept heap (newGrown same) combined putLoadEntry,rfl⟩

theorem combinePartsKept {loadMap : Text → Option DataContext} {data : Pointer} {parts : List Text}
    {pTrg : Nat} (heap : Heap m) (done : combineParts loadMap data parts pTrg m = .ok next) :
    Heap next ∧ Grown m next := by
  induction parts generalizing pTrg m with
  | nil => cases done; exact ⟨heap,newGrown (fun _ _ there => there)⟩
  | cons part rest ih =>
    simp only [combineParts] at done
    split at done <;> try contradiction
    split at done <;> try contradiction
    simp only [bind,Except.bind] at done
    split at done <;> try contradiction
    split at done <;> try contradiction
    next mid wrote =>
    obtain ⟨heap',grown⟩ := ih (heapWrite heap wrote) done
    exact ⟨heap',grownTrans (writeGrown wrote) grown⟩

theorem combineLoadKept {names : List Text} (kept : Kept ctx)
    (done : combineLoad ctx names = .ok last) : Kept last ∧ last.status = ctx.status := by
  induction names generalizing ctx with
  | nil => cases done; exact ⟨kept,rfl⟩
  | cons name rest ih =>
    rw [combineLoadCons] at done
    split at done
    · simp only [combineName,bind,Except.bind] at done
      split at done <;> try contradiction
      next mid turn =>
      split at turn <;> try contradiction
      next pair made =>
      obtain ⟨pCDC,entered⟩ := pair
      dsimp only at turn
      split at turn <;> try contradiction
      split at turn <;> try contradiction
      next m filled =>
      cases turn
      obtain ⟨kept',status⟩ := combinedContextKept kept made
      obtain ⟨heap,grown⟩ := combinePartsKept kept'.heap filled
      have copied : Kept { entered with memory := m } :=
        ⟨heap,fun pDC entry => soundGrown (kept'.sound pDC entry) grown⟩
      obtain ⟨end_,same⟩ := ih copied done
      exact ⟨end_,same.trans status⟩
    · exact ih kept done

theorem ranLift {α : Type} {x : Except Stop α} {log : Log Op Reply} {a : α} :
    Ran (lift x) log a ↔ x = .ok a ∧ log = [] := by
  cases x with
  | ok b => simp only [lift,ranPure,Except.ok.injEq,and_comm,eq_comm]
  | error e => simp only [lift,ranStop,reduceCtorEq,false_and]

theorem ranNN {m : Text} {stg : NNStg} {loads stores : List Text} {log : Log Op Reply}
    (ran : Ran (nn ctx m stg loads stores) log last) : ∃ combined,
      combineLoad ctx loads = .ok combined ∧ last = recordStores combined m stg loads stores := by
  have rest {combined : PIContext} {log : Log Op Reply} (ran : Ran (do
      let ctx := recordStores combined m stg loads stores
      if ctx.trainIt = 0 then PyInterface.prod ctx m loads stores
      pure ctx) log last) : last = recordStores combined m stg loads stores := by
    dsimp only at ran
    split at ran
    · obtain ⟨_,_,_,_,ran,_⟩ := ranBind.mp ran
      exact (ranPure.mp ran).2
    · exact (ranPure.mp ran).2
  unfold nn at ran
  obtain ⟨_,_,_,_,ran,_⟩ := ranBind.mp ran
  obtain ⟨_,_,_,_,ran,_⟩ := ranBind.mp ran
  obtain ⟨_,combined,_,lifted,ran,_⟩ := ranBind.mp ran
  refine ⟨combined,(ranLift.mp lifted).1,?_⟩
  obtain ⟨_,_,_,_,ran,_⟩ := ranBind.mp ran
  split at ran
  · obtain ⟨_,_,_,_,ran,_⟩ := ranBind.mp ran
    exact rest ran
  · exact rest ran

/- A store in the data file of the current input, and in the store information of the
first one. -/
theorem ranStore {name : Text} {tID : TypeID} {nmemb : Int} {data : Pointer} {log : Log Op Reply}
    (ran : Ran (store ctx name tID nmemb data) log last) : ∃ m stg loads early late,
      ctx.storeModelMap name = some ((m,stg),loads) ∧
      storeContext ctx name tID nmemb data = .ok last ∧ log = early ++ late ∧
      (match dataPlace last with
        | some (dataDir,dataIdx) => Ran (writeStores last m stg loads dataDir dataIdx name) early ()
        | none => early = []) ∧
      if last.trainIt = 0 then Ran (prodWriteStoreInfo m name tID nmemb stg) late () else late = [] := by
  unfold store at ran
  split at ran
  · exact (ranStop.mp ran).elim
  · next m stg loads known =>
    obtain ⟨none,stored,log',lifted,files,rfl⟩ := ranBind.mp ran
    obtain ⟨done,rfl⟩ := ranLift.mp lifted
    have rest {log : Log Op Reply} (ran : Ran (do
        if stored.trainIt = 0 then prodWriteStoreInfo m name tID nmemb stg
        pure stored) log last) : last = stored ∧
          if last.trainIt = 0 then Ran (prodWriteStoreInfo m name tID nmemb stg) log ()
          else log = [] := by
      split at ran
      · next first =>
        obtain ⟨info,_,end_,wrote,done,rfl⟩ := ranBind.mp ran
        obtain ⟨rfl,rfl⟩ := ranPure.mp done
        rw [if_pos first,List.append_nil]
        exact ⟨rfl,wrote⟩
      · next later =>
        obtain ⟨rfl,rfl⟩ := ranPure.mp ran
        exact ⟨rfl,if_neg later ▸ rfl⟩
    cases place : dataPlace stored with
    | some where_ =>
      simp only [place] at files
      obtain ⟨early,_,late,wrote,after,rfl⟩ := ranBind.mp files
      obtain ⟨rfl,info⟩ := rest after
      refine ⟨m,stg,loads,early,late,known,done,List.nil_append _,?_,info⟩
      rw [place]
      exact wrote
    | none =>
      simp only [place] at files
      obtain ⟨rfl,info⟩ := rest files
      refine ⟨m,stg,loads,[],log',known,done,rfl,?_,info⟩
      rw [place]

/- What a call leaves of a context: its place, and the labels but for those of a network. -/
def labelsAfter (ctx : PIContext) : Call → PIContext
  | .piNN m stg loads stores => recordStores ctx m stg loads stores
  | _ => ctx

theorem callFramed {c : Call} {log : Log Op Reply} (ran : Ran (ProgIntel.call ctx c) log last) :
    ∃ framed, Framed ctx framed ∧ last = labelsAfter framed c := by
  cases c with
  | piLoad name tID nmemb data doAlloc => exact ⟨last,loadFramed (ranLift.mp ran).1,rfl⟩
  | piLoadCB name tID nmemb cb => exact ⟨last,loadCBFramed (ranLift.mp ran).1,rfl⟩
  | piNN m stg loads stores =>
    obtain ⟨combined,done,rfl⟩ := ranNN ran
    exact ⟨combined,combineLoadFramed done,rfl⟩
  | piStore name tID nmemb data =>
    obtain ⟨_,_,_,_,_,_,done,_⟩ := ranStore ran
    exact ⟨last,storeContextFramed done,rfl⟩
  | poke data bytes =>
    simp only [ProgIntel.call] at ran
    split at ran
    · exact (ranStop.mp ran).elim
    · rw [(ranPure.mp ran).2]
      exact ⟨poke ctx data bytes,rfl,rfl⟩

theorem callKept {c : Call} {log : Log Op Reply} (kept : Kept ctx) (allowed : Allowed ctx c)
    (ran : Ran (ProgIntel.call ctx c) log last) : Kept last := by
  cases c with
  | piLoad name tID nmemb data doAlloc =>
    obtain ⟨rfl,count⟩ := allowed
    exact loadKept kept (by omega) (ranLift.mp ran).1
  | piLoadCB name tID nmemb cb =>
    exact loadCBKept kept (Int.le_of_lt allowed) (ranLift.mp ran).1
  | piNN m stg loads stores =>
    obtain ⟨combined,done,rfl⟩ := ranNN ran
    exact ⟨(combineLoadKept kept done).1.heap,(combineLoadKept kept done).1.sound⟩
  | piStore name tID nmemb data =>
    obtain ⟨_,_,_,_,_,_,done,_⟩ := ranStore ran
    exact storeKept kept allowed.1 (Int.le_of_lt allowed.2) done
  | poke data bytes =>
    simp only [ProgIntel.call] at ran
    split at ran
    · exact (ranStop.mp ran).elim
    · next some_ =>
      rw [(ranPure.mp ran).2]
      exact pokeKept kept some_ allowed

theorem reachedKept {begin_ : PIContext} (begun : Begun begin_) (reached : Reached begin_ ctx) :
    Kept ctx := by
  induction reached with
  | begin =>
    refine ⟨begun.heap,fun pDC entry => ?_⟩
    rcases entry with ⟨name,found⟩ | ⟨sprod,name,found⟩
    · rw [begun.loads name] at found
      cases found
    · rw [begun.stores sprod name] at found
      cases found
  | call reached allowed ran kept => exact callKept kept allowed ran

theorem arrayDone {tID : TypeID} {nmemb : Int} {data : Pointer} {values : List Scalar}
    (positive : 1 ≤ nmemb)
    (got : DataContext.values ⟨tID,nmemb,data,false,[]⟩ m = .ok values) : ∃ size block,
      getTypeSize tID = .ok size ∧ m.blocks data = some block ∧ size * nmemb ≤ block.length ∧
      values = elements tID size nmemb.toNat (block.take (size * nmemb).toNat) := by
  simp only [DataContext.values,bind,Except.bind,if_neg (not_le.mpr (Int.lt_of_lt_of_le one_pos positive))]
    at got
  split at got <;> try contradiction
  next size typed =>
  split at got <;> try contradiction
  next bytes read =>
  cases got
  obtain ⟨block,there,fits,rfl⟩ := readDone read
  exact ⟨size,block,typed,there,fits,rfl⟩

theorem fitsCopies {known : Option DataContext} {tID : TypeID} {nmemb : Int} {data : Pointer}
    (heap : Heap m) (sound : ∀ old, known = some old → Sound m old) (positive : 1 ≤ nmemb)
    (fits : Fits known m tID nmemb data) : ∃ pDC mid next values,
      contextOf known m tID nmemb true = .ok (pDC,mid) ∧ pDC.setData mid data = .ok (pDC,next) ∧
      pDC.tID = tID ∧ pDC.nmemb = nmemb ∧
      DataContext.values ⟨tID,nmemb,data,false,[]⟩ m = .ok values ∧
      (values.length : Int) = nmemb ∧ pDC.values next = .ok values ∧
      ∀ v, pDC.first next = .ok v → values.head? = some v := by
  obtain ⟨values,passed⟩ := fits.array
  obtain ⟨size,block,typed,there,long,rfl⟩ := arrayDone positive passed
  have small := fits.small size typed
  have count : 0 ≤ (size : Int) * nmemb := mul_nonneg (Int.natCast_nonneg _) (Int.le_of_lt positive)
  have counted : byteCount size nmemb = .ok (size * nmemb) := if_pos ⟨by omega,small⟩
  obtain ⟨pDC,mid,made⟩ : ∃ pDC mid, contextOf known m tID nmemb true = .ok (pDC,mid) := by
    cases known with
    | some old => exact ⟨old,m,rfl⟩
    | none =>
      simp only [contextOf,DataContext.new,if_true,typed,counted,bind,Except.bind]
      exact ⟨_,_,rfl⟩
  have shape : pDC.tID = tID ∧ pDC.nmemb = nmemb := by
    rcases contextOfShape made with old | ⟨_,new⟩
    · exact fits.same pDC old
    · rw [new]
      exact ⟨rfl,rfl⟩
  obtain ⟨rfl,rfl⟩ := shape
  obtain ⟨own,_,_⟩ := contextSound heap (Int.le_of_lt positive) sound made
  have kept : mid.blocks data = some block := by
    cases known with
    | some old => cases made; exact there
    | none => exact (newDone heap (Int.le_of_lt positive) made).2.2.2 data block there
  obtain ⟨owned,_,size',old,typed',_,mine,length⟩ := own
  cases typed.symm.trans typed'
  have some_ : data ≠ 0 := fun null => by
    rw [null,heap.null] at there
    cases there
  have bytes : (block.take (size * pDC.nmemb).toNat).length = (size * pDC.nmemb).toNat := by
    rw [List.length_take]
    omega
  have whole : 0 + (block.take (size * pDC.nmemb).toNat).length ≤ old.length := by omega
  have copy : old.take 0 ++ block.take (size * pDC.nmemb).toNat ++
      old.drop (0 + (block.take (size * pDC.nmemb).toNat).length) =
        block.take (size * pDC.nmemb).toNat := by
    rw [List.take_zero,List.nil_append,List.drop_eq_nil_of_le (by omega),List.append_nil]
  have wrote := writeFits mine whole
  rw [copy] at wrote
  have set : pDC.setData mid data = .ok (pDC,⟨Function.update mid.blocks pDC.data
      (some (block.take (size * pDC.nmemb).toNat)),mid.fresh⟩) := by
    simp only [DataContext.setData,if_neg some_,owned,if_true,typed,counted,readFits kept long,wrote,
      bind,Except.bind]
    rfl
  refine ⟨pDC,mid,_,_,made,set,rfl,rfl,passed,?_,?_,fun v first => ?_⟩
  · rw [valuesLength passed]
    exact Int.toNat_of_nonneg (Int.le_of_lt positive)
  · refine copyValues typed positive ?_
    rw [bytes]
    exact Int.toNat_of_nonneg count
  · replace first : DataContext.first ⟨pDC.tID,pDC.nmemb,pDC.data,true,[]⟩ _ = .ok v := first
    rw [copyFirst typed first]
    exact elementsHead (Int.pos_iff_toNat_pos.mp positive)

theorem calledLate {op : Op} {early log : Log Op Reply} (called : Called op log) :
    Called op (early ++ log) := called.imp fun _ inside => List.mem_append_right _ inside

theorem calledFirst {α : Type} {op : Op} {f : Reply → Steps α} {log : Log Op Reply} {a : α}
    (ran : Ran (perform op >>= f) log a) : Called op log := by
  obtain ⟨_,r,_,called,_,rfl⟩ := ranBind.mp ran
  cases ranPerform.mp called
  exact ⟨r,List.mem_cons_self⟩

theorem ranLoadData {name : Text} {pDC : DataContext} {values : List Scalar} {path : Path}
    {log : Log Op Reply} (got : loadValues pDC m = .ok values) (some_ : pDC.data ≠ 0) :
    Ran (writeLoadData (some pDC) m name path) log () ↔
      ∃ r, log = [(.create path,.ok),(.write path (loadText name pDC.nmemb values),r)] := by
  constructor
  · intro ran
    obtain ⟨_,r,_,opened,put,rfl⟩ := ranBind.mp ran
    cases ranPerform.mp opened
    cases r with
    | ok =>
      obtain ⟨early,_,_,asked,printed,rfl⟩ := ranBind.mp put
      have quiet : Only (fun _ => False) (require (decide (pDC.data ≠ 0))
        "DataContext should contain data to write") := onlyAssert _ _
      cases List.eq_nil_iff_forall_not_mem.mpr (ranOnly quiet asked)
      obtain ⟨_,_,_,lifted,wrote,rfl⟩ := ranBind.mp printed
      obtain ⟨got',rfl⟩ := ranLift.mp lifted
      cases got.symm.trans got'
      obtain ⟨_,r,_,written,closed,rfl⟩ := ranBind.mp wrote
      cases ranPerform.mp written
      cases (ranPure.mp closed).1
      exact ⟨r,rfl⟩
    | _ => exact (ranStop.mp put).elim
  · rintro ⟨r,rfl⟩
    have asked : Ran (require (decide (pDC.data ≠ 0)) "DataContext should contain data to write")
        ([] : Log Op Reply) () := by
      rw [require,if_pos (decide_eq_true some_)]
      exact .ret ()
    refine ranBind.mpr ⟨[(.create path,.ok)],.ok,_,ranPerform.mpr rfl,?_,rfl⟩
    refine ranBind.mpr ⟨[],(),_,asked,ranBind.mpr ⟨[],values,_,?_,?_,rfl⟩,rfl⟩
    · exact ranLift.mpr ⟨got,rfl⟩
    · exact .call r (.ret ())

theorem loadFileTexts {name : Text} {pDC : DataContext} {values : List Scalar}
    (known : ctx.loadMap name = some pDC) (got : loadValues pDC ctx.memory = .ok values)
    (some_ : pDC.data ≠ 0) : LoadFile ctx name pDC.nmemb values := by
  refine ⟨fun dir dataIdx => ?_,fun dir dataIdx log ran => ?_,fun dir dataIdx => ?_⟩
  · have write : Only (Puts [loadText name pDC.nmemb values])
        (writeLoadData (ctx.loadMap name) ctx.memory name (dir ++ [decimal dataIdx])) := by
      refine onlyBind ((onlyPerform _).mpr trivial) (fun r => ?_)
      cases r with
      | ok =>
        have put : Only (Puts [loadText name pDC.nmemb values])
            (perform (.write (dir ++ [decimal dataIdx]) (loadText name pDC.nmemb values)) >>=
              fun _ => (pure () : Steps Unit)) :=
          onlyBind ((onlyPerform _).mpr List.mem_cons_self) (fun _ => trivial)
        rw [known]
        refine onlyBind (onlyAssert _ _) (fun _ => ?_)
        rw [got]
        exact put
      | _ => trivial
    refine onlyBind ((onlyPerform _).mpr trivial) (fun r => ?_)
    cases r with
    | ok => exact write
    | _ => exact onlyBind (onlyMkdirShared _ trivial) (fun _ => write)
  · have closes {log : Log Op Reply} (ran : Ran (writeLoadData (ctx.loadMap name) ctx.memory name
        (dir ++ [decimal dataIdx])) log ()) :
        Called (.write (dir ++ [decimal dataIdx]) (loadText name pDC.nmemb values)) log := by
      rw [known] at ran
      obtain ⟨r,rfl⟩ := (ranLoadData got some_).mp ran
      exact ⟨r,List.mem_cons_of_mem _ List.mem_cons_self⟩
    obtain ⟨_,r,_,_,opened,rfl⟩ := ranBind.mp ran
    refine calledLate ?_
    cases r with
    | ok => exact closes opened
    | _ =>
      obtain ⟨_,_,_,_,made,rfl⟩ := ranBind.mp opened
      exact calledLate (closes made)
  · have made := (@ranLoadData _ name _ _ (dir ++ [decimal dataIdx]) _ got some_).mpr ⟨.ok,rfl⟩
    rw [← known] at made
    exact ⟨_,.call Reply.ok made⟩

theorem ranStoreFile {dir : Path} {dataIdx : Nat} {name : Text} {log : Log Op Reply} :
    Ran (writeStoreFile ctx dir dataIdx name) log () ↔ ∃ pDC values,
      ctx.storeMap name = some pDC ∧ storeValues pDC ctx.memory = .ok values ∧
      log = [(.opensDir dir,.ok),(.append (dir ++ [decimal dataIdx])
        (storeText name pDC.nmemb values),.ok)] := by
  constructor
  · intro ran
    obtain ⟨_,r,_,tested,opened,rfl⟩ := ranBind.mp ran
    cases ranPerform.mp tested
    cases r with
    | ok =>
      replace opened : Ran (writeStoreData (ctx.storeMap name) ctx.memory name
        (dir ++ [decimal dataIdx])) _ () := opened
      cases known : ctx.storeMap name with
      | none =>
        rw [known] at opened
        exact (ranStop.mp opened).elim
      | some pDC =>
        rw [known] at opened
        obtain ⟨_,values,_,lifted,printed,rfl⟩ := ranBind.mp opened
        obtain ⟨got,rfl⟩ := ranLift.mp lifted
        obtain ⟨_,r,_,added,closed,rfl⟩ := ranBind.mp printed
        cases ranPerform.mp added
        cases r with
        | ok =>
          cases (ranPure.mp closed).1
          exact ⟨pDC,values,rfl,got,rfl⟩
        | _ => exact (ranStop.mp closed).elim
    | _ => exact (ranStop.mp opened).elim
  · rintro ⟨pDC,values,known,got,rfl⟩
    refine .call Reply.ok ?_
    change Ran (writeStoreData (ctx.storeMap name) ctx.memory name (dir ++ [decimal dataIdx])) _ ()
    rw [known]
    exact ranBind.mpr ⟨[],values,_,ranLift.mpr ⟨got,rfl⟩,.call Reply.ok (.ret ()),rfl⟩

theorem ranStores {m dataDir name : Text} {stg : NNStg} {loads : List Text} {dataIdx : Nat}
    {log : Log Op Reply} (ran : Ran (writeStores ctx m stg loads dataDir dataIdx name) log ()) :
    (∀ dir ∈ storeDirs m stg loads dataDir, ∃ file, Ran (writeStoreFile ctx dir dataIdx name) file () ∧
      ∀ e ∈ file, e ∈ log) ∧
    ∀ e ∈ log, ∃ dir file, Ran (writeStoreFile ctx dir dataIdx name) file () ∧ e ∈ file := by
  have files {loads : List Text} {log : Log Op Reply}
      (ran : Ran (writeStoreFiles ctx m dataDir dataIdx name loads) log ()) :
      (∀ dir ∈ storeDirs m .ens loads dataDir, ∃ file,
        Ran (writeStoreFile ctx dir dataIdx name) file () ∧ ∀ e ∈ file, e ∈ log) ∧
      ∀ e ∈ log, ∃ dir file, Ran (writeStoreFile ctx dir dataIdx name) file () ∧ e ∈ file := by
    induction loads generalizing log with
    | nil =>
      cases (ranPure.mp ran).1
      exact ⟨nofun,nofun⟩
    | cons loadName rest ih =>
      obtain ⟨early,_,late,first,after,rfl⟩ := ranBind.mp ran
      obtain ⟨each,all⟩ := ih after
      refine ⟨fun dir inside => ?_,fun e inside => ?_⟩
      · rcases List.mem_cons.mp inside with rfl | inside
        · exact ⟨early,first,fun _ => List.mem_append_left _⟩
        · obtain ⟨file,wrote,parts⟩ := each dir inside
          exact ⟨file,wrote,fun e there => List.mem_append_right _ (parts e there)⟩
      · rcases List.mem_append.mp inside with inside | inside
        · exact ⟨_,early,first,inside⟩
        · exact all e inside
  have quiet : Only (fun _ => False) (knownDataDir dataDir) := onlyAssert _ _
  cases stg with
  | one =>
    obtain ⟨early,_,late,asked,wrote,rfl⟩ := ranBind.mp ran
    cases List.eq_nil_iff_forall_not_mem.mpr (ranOnly quiet asked)
    refine ⟨fun dir inside => ?_,fun e inside => ⟨_,late,wrote,inside⟩⟩
    cases List.mem_singleton.mp inside
    exact ⟨late,wrote,fun _ there => there⟩
  | ens =>
    obtain ⟨early,_,late,asked,wrote,rfl⟩ := ranBind.mp ran
    cases List.eq_nil_iff_forall_not_mem.mpr (ranOnly quiet asked)
    exact files wrote

theorem storesReturn (m : Text) (stg : NNStg) (loads : List Text) {name : Text} {place : Text × Nat}
    (placed : dataPlace last = some place)
    (file : ∀ dir, ∃ log, Ran (writeStoreFile ctx dir place.2 name) log ()) :
    ∃ log, Ran (writeStores ctx m stg loads place.1 place.2 name) log () := by
  have known : Ran (knownDataDir place.1) ([] : Log Op Reply) () := by
    have dir : place.1 = piTrainDir ∨ place.1 = piValidDir := by
      unfold dataPlace at placed
      split at placed
      · cases placed
        exact .inl rfl
      · split at placed <;> cases placed
        exact .inr rfl
    rw [knownDataDir,require,if_pos (decide_eq_true dir)]
    exact .ret ()
  have files (loads : List Text) :
      ∃ log, Ran (writeStoreFiles ctx m place.1 place.2 name loads) log () := by
    induction loads with
    | nil => exact ⟨[],.ret ()⟩
    | cons loadName rest ih =>
      obtain ⟨late,after⟩ := ih
      obtain ⟨early,first⟩ := file [piDir,m,loadName,place.1]
      exact ⟨early ++ late,ranBind.mpr ⟨early,(),late,first,after,rfl⟩⟩
  cases stg with
  | one =>
    obtain ⟨log,wrote⟩ := file [piDir,m,place.1]
    exact ⟨log,ranBind.mpr ⟨[],(),log,known,wrote,rfl⟩⟩
  | ens =>
    obtain ⟨log,wrote⟩ := files loads
    exact ⟨log,ranBind.mpr ⟨[],(),log,known,wrote,rfl⟩⟩

theorem ranStoreInfo {m name : Text} {tID : TypeID} {nmemb : Int} {stg : NNStg}
    {log : Log Op Reply} (ran : Ran (prodWriteStoreInfo m name tID nmemb stg) log ()) :
    Called (.append (storePath m stg) (storeRecord name tID nmemb)) log ∨
      Called (.write (storePath m stg) (storeRecord name tID nmemb)) log := by
  obtain ⟨_,r,_,_,tested,rfl⟩ := ranBind.mp ran
  cases r with
  | ok =>
    obtain ⟨_,r,_,_,opened,rfl⟩ := ranBind.mp tested
    cases r with
    | ok => exact .inl (calledLate (calledLate (calledFirst opened)))
    | _ =>
      obtain ⟨_,_,_,_,begun,rfl⟩ := ranBind.mp opened
      exact .inr (calledLate (calledLate (calledLate (calledFirst begun))))
  | _ =>
    obtain ⟨_,_,_,stopped,_,_⟩ := ranBind.mp tested
    exact (ranStop.mp stopped).elim

theorem storeInfoReturns (m name : Text) (tID : TypeID) (nmemb : Int) (stg : NNStg) :
    ∃ log, Ran (prodWriteStoreInfo m name tID nmemb stg) log () :=
  ⟨_,.call Reply.ok (.call Reply.ok (.call Reply.ok (.ret ())))⟩

theorem storeFilesTexts {name : Text} {tID : TypeID} {nmemb : Int} {data : Pointer}
    {pDC : DataContext} {values : List Scalar} {log : Log Op Reply} {end_ : PIContext}
    (stored : storeContext ctx name tID nmemb data = .ok last) (entry : last.storeMap name = some pDC)
    (length : pDC.nmemb = nmemb) (got : storeValues pDC last.memory = .ok values)
    (ran : Ran (store ctx name tID nmemb data) log end_) :
    end_ = last ∧ StoreFiles ctx name tID nmemb values log := by
  obtain ⟨m,stg,loads,early,late,known,done,rfl,files,info⟩ := ranStore ran
  cases stored.symm.trans done
  have framed := storeContextFramed stored
  have samePlace : dataPlace last = dataPlace ctx := by
    rw [framed]
    rfl
  have sameIt : last.trainIt = ctx.trainIt := by
    rw [framed]
  rw [samePlace] at files
  rw [sameIt] at info
  have sect {dir : Path} {dataIdx : Nat} {file : Log Op Reply}
      (wrote : Ran (writeStoreFile last dir dataIdx name) file ()) : file = [(.opensDir dir,.ok),
        (.append (dir ++ [decimal dataIdx]) (storeText name nmemb values),.ok)] := by
    obtain ⟨other,vs,entry',got',rfl⟩ := ranStoreFile.mp wrote
    cases entry.symm.trans entry'
    cases got.symm.trans got'
    rw [length]
  refine ⟨rfl,fun e inside => ?_,fun m' stg' loads' known' dataDir dataIdx place dir inside => ?_,
    fun m' stg' loads' known' first => ?_⟩
  · rcases List.mem_append.mp inside with inside | inside
    · split at files
      · obtain ⟨dir,file,wrote,there⟩ := (ranStores files).2 e inside
        rw [sect wrote] at there
        rcases List.mem_cons.mp there with rfl | there
        · trivial
        · cases List.mem_singleton.mp there
          exact List.mem_cons_self
      · rw [files] at inside
        cases inside
    · split at info
      · have record : storeRecord name tID nmemb ∈
            [storeText name nmemb values,storeRecord name tID nmemb] :=
          List.mem_cons_of_mem _ List.mem_cons_self
        exact ranOnly (onlyStoreInfo ⟨trivial,trivial⟩ trivial record record) info e inside
      · rw [info] at inside
        cases inside
  · cases known.symm.trans known'
    rw [place] at files
    obtain ⟨file,wrote,parts⟩ := (ranStores files).1 dir inside
    rw [sect wrote] at parts
    exact ⟨.ok,List.mem_append_left _ (parts _ (List.mem_cons_of_mem _ List.mem_cons_self))⟩
  · cases known.symm.trans known'
    rw [if_pos first] at info
    exact (ranStoreInfo info).imp calledLate calledLate

theorem storeReturns {name : Text} {tID : TypeID} {nmemb : Int} {data : Pointer} {pDC : DataContext}
    {values : List Scalar} (stored : storeContext ctx name tID nmemb data = .ok last)
    (entry : last.storeMap name = some pDC) (got : storeValues pDC last.memory = .ok values)
    (known : (ctx.storeModelMap name).isSome) :
    ∃ log, Ran (store ctx name tID nmemb data) log last := by
  obtain ⟨⟨⟨m,stg⟩,loads⟩,known⟩ := Option.isSome_iff_exists.mp known
  have rest : ∃ log, Ran (do
      if last.trainIt = 0 then prodWriteStoreInfo m name tID nmemb stg
      pure last) log last := by
    split
    · obtain ⟨log,wrote⟩ := storeInfoReturns m name tID nmemb stg
      exact ⟨log,ranBind.mpr ⟨log,(),[],wrote,.ret last,(List.append_nil log).symm⟩⟩
    · exact ⟨[],.ret last⟩
  obtain ⟨late,after⟩ := rest
  unfold store
  rw [known,stored]
  cases placed : dataPlace last with
  | none => exact ⟨late,ranBind.mpr ⟨[],last,late,.ret last,by simpa only [placed] using after,rfl⟩⟩
  | some place =>
    obtain ⟨early,wrote⟩ := storesReturn m stg loads placed fun dir =>
      ⟨_,ranStoreFile.mpr ⟨pDC,values,entry,got,rfl⟩⟩
    refine ⟨early ++ late,ranBind.mpr ⟨[],last,early ++ late,.ret last,?_,rfl⟩⟩
    simp only [placed]
    exact ranBind.mpr ⟨early,(),late,wrote,after,rfl⟩

theorem storeValuesOnce {pDC : DataContext} {values : List Scalar} {size : Nat}
    (typed : getTypeSize pDC.tID = .ok size) (single : ¬ doubled pDC.tID)
    (held : pDC.values m = .ok values) : storeValues pDC m = .ok values := by
  unfold storeValues
  unfold doubled at single
  cases tID : pDC.tID <;> rw [tID] at typed single <;> first
    | exact held
    | exact absurd (.inl rfl) single
    | exact absurd (.inr (.inl rfl)) single
    | exact absurd (.inr (.inr rfl)) single
    | cases typed

/- In every run, a call that repeats the type and the length of its name's first use wins. -/
theorem lastWins {begin_ : PIContext} (begun : Begun begin_) (reached : Reached begin_ ctx)
    (c : Call) (allowed : Allowed ctx c) (repeats : Repeats ctx c) : Wins ctx c := by
  have kept := reachedKept begun reached
  cases c with
  | piLoad name tID nmemb data doAlloc =>
    obtain ⟨rfl,positive⟩ := allowed
    obtain ⟨pDC,mid,next,values,made,filled,type_,length,passed,count,held,-⟩ := fitsCopies kept.heap
      (fun old known => kept.sound old (.inl ⟨name,known⟩)) positive repeats
    have entry : Function.update ctx.loadMap name (some pDC) name = some pDC :=
      Function.update_self ..
    obtain ⟨size,_,typed,_⟩ := arrayDone positive passed
    have got : loadValues pDC next = .ok values := by
      simp only [loadValues,type_,typed]
      exact held
    have loaded : load ctx name tID nmemb data true = .ok { ctx with
        loadMap := Function.update ctx.loadMap name (some pDC), memory := next } := by
      simp only [load,made,filled,bind,Except.bind]
      rfl
    have some_ : pDC.data ≠ 0 := by
      have after := loadKept kept (Int.le_of_lt positive) loaded
      obtain ⟨_,_,_,block,_,_,there,_⟩ := after.sound pDC (.inl ⟨name,entry⟩)
      intro null
      rw [null,after.heap.null] at there
      cases there
    refine ⟨_,pDC,values,loaded,entry,⟨type_,length,passed,count,held,?_⟩,
      length ▸ loadFileTexts entry got some_⟩
    simp only [piGetData,entry,length]
  | piStore name tID nmemb data =>
    obtain ⟨fits,unloaded,single⟩ := repeats
    obtain ⟨pDC,mid,next,values,made,filled,type_,length,passed,count,held,-⟩ := fitsCopies kept.heap
      (fun old known => kept.sound old (.inr ⟨allowed.1,name,known⟩)) allowed.2 fits
    have entry : Function.update ctx.storeMap name (some pDC) name = some pDC :=
      Function.update_self ..
    have stored : storeContext ctx name tID nmemb data = .ok { ctx with
        storeMap := Function.update ctx.storeMap name (some pDC), memory := next } := by
      simp only [storeContext,made,filled,bind,Except.bind]
      rfl
    obtain ⟨size,_,typed,_⟩ := arrayDone allowed.2 passed
    have got : storeValues pDC next = .ok values :=
      storeValuesOnce (type_ ▸ typed) (type_ ▸ single) held
    refine ⟨_,pDC,values,stored,entry,⟨type_,length,passed,count,held,?_⟩,fun log last ran => ?_,
      storeReturns stored entry got⟩
    · simp only [piGetData,unloaded,entry,length]
    · exact storeFilesTexts stored entry length got ran
  | piLoadCB name tID nmemb cb => trivial
  | piNN m stg loads stores => trivial
  | poke data bytes => trivial

end

theorem childBegun (modPath : Text) (n v k : Nat) : Begun (childContext modPath n v k) :=
  ⟨.inl rfl,⟨⟨Nat.one_pos,nofun⟩,rfl⟩,fun _ => rfl,fun _ _ => rfl⟩

def withInts : PIContext := poke (childContext [] 1 0 0) 1 [5,0,0,0,6,0,0,0]

theorem intsReached : Reached (childContext [] 1 0 0) withInts := by
  refine .call (c := .poke 1 [5,0,0,0,6,0,0,0]) .begin (fun pDC block entry => ?_)
    (ranPure.mpr ⟨rfl,rfl⟩)
  rcases entry with ⟨name,found⟩ | ⟨-,name,found⟩ <;> cases found

def ready : Op → Unit → Reply × Unit := fun _ s => (.ok,s)

/- They win in a load, and after it in a store of a network. -/
theorem bothIntsWin : Wins withInts (.piLoad ['x'] .i 2 1 true) ∧
    ∃ ctx log last values, Reached (childContext [] 1 0 0) ctx ∧ Wins ctx (.piStore ['y'] .i 2 1) ∧
      Ran (store ctx ['y'] .i 2 1) log last ∧ StoreFiles ctx ['y'] .i 2 values log := by
  refine ⟨lastWins (childBegun [] 1 0 0) intsReached _ ⟨rfl,by decide⟩
    { array := ⟨_,rfl⟩, small := fun size typed => by cases typed; decide, same := nofun },?_⟩
  obtain ⟨mid,loaded⟩ : ∃ mid, load withInts ['x'] .i 2 1 true = .ok mid := ⟨_,rfl⟩
  have first : Reached (childContext [] 1 0 0) mid :=
    .call (c := .piLoad ['x'] .i 2 1 true) intsReached ⟨rfl,by decide⟩ (ranLift.mpr ⟨loaded,rfl⟩)
  obtain ⟨ctx,ran,sprod,block,unloaded,unstored,label⟩ : ∃ ctx,
      ((nn mid ['m'] .one [['x']] [['y']]).exec ready ()).1 = .ok ctx ∧ mid.status = .sprod ∧
      ctx.memory.blocks 1 = some [5,0,0,0,6,0,0,0] ∧ ctx.loadMap ['y'] = none ∧
      ctx.storeMap ['y'] = none ∧ (ctx.storeModelMap ['y']).isSome := by
    cases loaded
    exact ⟨_,rfl,rfl,rfl,rfl,rfl,rfl⟩
  obtain ⟨past,ran⟩ := execRan ran
  have reached : Reached (childContext [] 1 0 0) ctx :=
    .call (c := .piNN ['m'] .one [['x']] [['y']]) first sprod ran
  have same : ctx.status = .sprod := by
    obtain ⟨framed,frame,rfl⟩ := callFramed (c := .piNN ['m'] .one [['x']] [['y']]) ran
    have kept : framed.status = mid.status := by rw [frame]
    exact kept.trans sprod
  have read : ctx.memory.read 1 ((4 : Nat) * 2) = .ok [5,0,0,0,6,0,0,0] := readFits block (by decide)
  have positive : ¬ (2 : Int) ≤ 0 := by decide
  have array : ∃ values, DataContext.values ⟨.i,2,1,false,[]⟩ ctx.memory = .ok values := by
    simp only [DataContext.values,getTypeSize,bind,Except.bind,if_neg positive,read]
    exact ⟨_,rfl⟩
  have fits : Fits (ctx.storeMap ['y']) ctx.memory .i 2 1 :=
    { array := array
      small := fun size typed => by cases typed; decide
      same := fun _ known => by rw [unstored] at known; cases known }
  have wins := lastWins (childBegun [] 1 0 0) reached (.piStore ['y'] .i 2 1) ⟨same,by decide⟩
    ⟨fits,unloaded,by unfold doubled; decide⟩
  have held := wins
  obtain ⟨next,_,values,_,_,_,all,returns⟩ := held
  obtain ⟨log,stored⟩ := returns label
  exact ⟨ctx,log,next,values,reached,wins,stored,(all log next stored).2⟩

/- A load of two ints after a load of one has the first of them. -/
theorem secondIntCut : ∃ ctx, Reached (childContext [] 1 0 0) ctx ∧
    Allowed ctx (.piLoad ['x'] .i 2 1 true) ∧ Given ctx.memory .i 2 1 ∧
    ¬ Wins ctx (.piLoad ['x'] .i 2 1 true) := by
  obtain ⟨ctx,loaded,there,entry⟩ : ∃ ctx, load withInts ['x'] .i 1 1 true = .ok ctx ∧
      ctx.memory.blocks 1 = some [5,0,0,0,6,0,0,0] ∧
      ctx.loadMap ['x'] = some ⟨.i,1,2,true,[]⟩ := ⟨_,rfl,rfl,rfl⟩
  refine ⟨ctx,.call (c := .piLoad ['x'] .i 1 1 true) intsReached ⟨rfl,le_rfl⟩
    (ranLift.mpr ⟨loaded,rfl⟩),⟨rfl,by decide⟩,⟨?_,fun size typed => ?_⟩,?_⟩
  · have read : ctx.memory.read 1 ((4 : Nat) * 2) = .ok [5,0,0,0,6,0,0,0] :=
      readFits there (by decide)
    have positive : ¬ (2 : Int) ≤ 0 := by decide
    simp only [DataContext.values,getTypeSize,bind,Except.bind,if_neg positive,read]
    exact ⟨_,rfl⟩
  · cases typed
    decide
  · rintro ⟨next,pDC,values,done,known,holds,-⟩
    obtain ⟨pOld,m,set,last,made,filled,rfl⟩ := loadDone done
    rw [entry] at made
    cases made
    replace known : Function.update ctx.loadMap ['x'] (some set) ['x'] = some pDC := known
    rw [Function.update_self] at known
    cases known
    obtain ⟨rfl,-⟩ := setDataDone rfl filled
    exact absurd holds.ofLength (by decide)

end Autonomizer.LastWins
