import Mathlib
import Autonomizer.Handed
import Autonomizer.StoreInfo

/-! store in training and test: the blocks that runtimeInit gives to the stores that were
read back, and the copy of one of them to the caller. -/
namespace Autonomizer.StoreBack
open CPIO (Bytes)
open Collect Data FileIO FileSystem Format Handed PIInc StoreInfo

/- unsigned int tSize * int nmemb. -/
def unsignedSize (tSize : Nat) (nmemb : Int) : Int := (tSize * nmemb) % 2^32

def allocate (pDC : DataContext) (m : Memory) : Except Stop (DataContext × Memory) := do
  let tSize ← getTypeSize pDC.tID
  if pDC.nmemb ≤ 0 then throw (.assertion "Data length should be greater than 0")
  let (data,m) := m.malloc (unsignedSize tSize pDC.nmemb)
  return ({ pDC with data },m)

/- The loop over the names of storeMap. -/
def runtimeInit (ctx : PIContext) : List Text → Except Stop PIContext
  | [] => .ok ctx
  | name :: rest =>
      match ctx.storeMap name with
      | none => runtimeInit ctx rest
      | some pDC => do
        let (pDC,m) ← allocate pDC ctx.memory
        runtimeInit { ctx with storeMap := Function.update ctx.storeMap name (some pDC), memory := m }
          rest

def copySize (pDC : DataContext) : Except Stop Int := do
  let tSize ← getTypeSize pDC.tID
  return unsignedSize tSize pDC.nmemb

def storeData (ctx : PIContext) (storeName : Text) (data : Pointer) : Except Stop PIContext := do
  if data = 0 then throw (.assertion "Cannot store data back to NULL pointer")
  match ctx.storeMap storeName with
  | none => throw (.failed "Cannot find information of store" [storeName])
  | some pDC =>
    let size ← copySize pDC
    let bytes ← ctx.memory.read pDC.data size
    let m ← ctx.memory.write data 0 bytes
    return { ctx with memory := m }

/- store in PI_TRAIN and PI_TEST: its type and its length are not looked at. -/
def store (ctx : PIContext) (name : Text) (_tID : TypeID) (_nmemb : Int) (data : Pointer) :
    Except Stop PIContext := storeData ctx name data

/- The call aborts, or as many bytes of the store as nmemb elements of its type have are
what it writes at data. -/
inductive Writes (ctx : PIContext) (name : Text) (tID : TypeID) (nmemb : Int) (data : Pointer) :
    Prop where
  | aborts {e} (failed : store ctx name tID nmemb data = .error e) (defined_ : e ≠ .undefined)
  | copies {next pDC tSize block} (done : store ctx name tID nmemb data = .ok next)
      (entry : ctx.storeMap name = some pDC) (typed : getTypeSize tID = .ok tSize)
      (source : ctx.memory.blocks pDC.data = some block)
      (enough : (tSize : Int) * nmemb ≤ block.length)
      (wrote : ctx.memory.write data 0 (block.take ((tSize : Int) * nmemb).toNat) = .ok next.memory)

def Ready (ctx : PIContext) : Prop :=
  ∀ name pDC, ctx.storeMap name = some pDC → ∃ size block, copySize pDC = .ok size ∧
    ctx.memory.blocks pDC.data = some block ∧ (block.length : Int) = size

/- A run after runtimeInit: stores, and whatever else the program and the networks do to
the memory but for the number of bytes behind a store. -/
inductive Later (begin_ : PIContext) : PIContext → Prop where
  | begin : Later begin_ begin_
  | store {ctx next name tID nmemb data} (later : Later begin_ ctx)
      (done : store ctx name tID nmemb data = .ok next) : Later begin_ next
  | other {ctx next : PIContext} (later : Later begin_ ctx) (same : next.storeMap = ctx.storeMap)
      (sizes : ∀ name pDC, ctx.storeMap name = some pDC →
        (next.memory.blocks pDC.data).map List.length = (ctx.memory.blocks pDC.data).map List.length) :
      Later begin_ next

section
variable {ctx next : PIContext}

theorem sizeRange (tSize : Nat) (nmemb : Int) : 0 ≤ unsignedSize tSize nmemb :=
  Int.emod_nonneg _ (by norm_num)

theorem allocateDone {pDC made : DataContext} {m next : Memory}
    (done : allocate pDC m = .ok (made,next)) : ∃ tSize, getTypeSize pDC.tID = .ok tSize ∧
      made = { pDC with data := m.fresh } ∧
      next = ⟨Function.update m.blocks m.fresh
        (some (List.replicate (unsignedSize tSize pDC.nmemb).toNat 0)),m.fresh + 1⟩ := by
  simp only [allocate,bind,Except.bind] at done
  split at done <;> try contradiction
  next tSize typed =>
  split at done <;> try contradiction
  have given : m.malloc (unsignedSize tSize pDC.nmemb) = (m.fresh,⟨Function.update m.blocks m.fresh
      (some (List.replicate (unsignedSize tSize pDC.nmemb).toNat 0)),m.fresh + 1⟩) :=
    if_neg (not_lt.mpr (sizeRange tSize pDC.nmemb))
  rw [given] at done
  cases done
  exact ⟨tSize,typed,rfl,rfl⟩

theorem runtimeInitReady {names : List Text} (heap : Heap ctx.memory)
    (ready : ∀ name pDC, name ∉ names → ctx.storeMap name = some pDC → ∃ size block,
      copySize pDC = .ok size ∧ ctx.memory.blocks pDC.data = some block ∧ (block.length : Int) = size)
    (done : runtimeInit ctx names = .ok next) : Ready next := by
  induction names generalizing ctx with
  | nil =>
    cases done
    exact fun name pDC => ready name pDC List.not_mem_nil
  | cons name rest ih =>
    rw [runtimeInit] at done
    cases known : ctx.storeMap name with
    | none =>
      simp only [known] at done
      refine ih heap (fun other pDC absent found => ready other pDC ?_ found) done
      rintro (_ | ⟨_,inside⟩)
      · rw [known] at found
        cases found
      · exact absent inside
    | some pDC =>
      simp only [known,bind,Except.bind] at done
      split at done <;> try contradiction
      next pair made =>
      obtain ⟨tSize,typed,pair₁,pair₂⟩ := allocateDone made
      rw [pair₁,pair₂] at done
      have fresh : ctx.memory.fresh ≠ 0 := Nat.ne_of_gt heap.formed.1
      refine ih (heapPut heap fresh (Nat.le_succ _) (Nat.lt_succ_self _)) ?_ done
      intro other pOther absent found
      replace found : Function.update ctx.storeMap name _ other = some pOther := found
      rw [Function.update_apply] at found
      split at found
      · cases found
        refine ⟨unsignedSize tSize pDC.nmemb,_,?_,Function.update_self ..,?_⟩
        · simp only [copySize,typed,bind,Except.bind]
          rfl
        · rw [List.length_replicate]
          exact Int.toNat_of_nonneg (sizeRange tSize pDC.nmemb)
      · next apart =>
        obtain ⟨size,block,count,there,length⟩ := ready other pOther (by
          rintro (_ | ⟨_,inside⟩)
          · exact apart rfl
          · exact absent inside) found
        refine ⟨size,block,count,?_,length⟩
        have old := heap.formed.2 _ block there
        exact (Function.update_of_ne (Nat.ne_of_lt old) ..).trans there

theorem storeDone {name : Text} {data : Pointer} (done : storeData ctx name data = .ok next) :
    data ≠ 0 ∧ ∃ pDC size bytes, ctx.storeMap name = some pDC ∧ copySize pDC = .ok size ∧
      ctx.memory.read pDC.data size = .ok bytes ∧ next.storeMap = ctx.storeMap ∧
      ctx.memory.write data 0 bytes = .ok next.memory := by
  simp only [storeData,bind,Except.bind] at done
  split at done <;> try contradiction
  next some_ =>
  split at done <;> try contradiction
  next pDC known =>
  split at done <;> try contradiction
  next size count =>
  split at done <;> try contradiction
  next bytes read =>
  split at done <;> try contradiction
  next m wrote =>
  cases done
  exact ⟨some_,pDC,size,bytes,known,count,read,rfl,wrote⟩

theorem laterReady {begin_ : PIContext} (ready : Ready begin_) (later : Later begin_ ctx) :
    Ready ctx := by
  induction later with
  | begin => exact ready
  | @store ctx next name tID nmemb data _ done ih =>
    obtain ⟨_,_,_,_,_,_,_,same,wrote⟩ := storeDone done
    intro other pOther found
    rw [same] at found
    obtain ⟨size,block,count,there,length⟩ := ih other pOther found
    obtain ⟨target,at_,fits,memory⟩ := writeDone wrote
    rw [memory]
    by_cases here : pOther.data = data
    · rw [here] at there ⊢
      cases at_.symm.trans there
      exact ⟨size,_,count,Function.update_self ..,by rw [writtenLength fits]; exact length⟩
    · exact ⟨size,block,count,(Function.update_of_ne here ..).trans there,length⟩
  | other _ same sizes ih =>
    intro name pDC found
    rw [same] at found
    obtain ⟨size,block,count,there,length⟩ := ih name pDC found
    have kept := sizes name pDC found
    rw [there] at kept
    obtain ⟨block',there',length'⟩ := Option.map_eq_some_iff.mp kept
    exact ⟨size,block',count,there',by rw [length']; exact length⟩

theorem copySizeOf {pDC : DataContext} {size : Int} (count : copySize pDC = .ok size) :
    ∃ recorded, getTypeSize pDC.tID = .ok recorded ∧ size = unsignedSize recorded pDC.nmemb := by
  simp only [copySize,bind,Except.bind] at count
  split at count <;> try contradiction
  next recorded typed =>
  cases count
  exact ⟨recorded,typed,rfl⟩

theorem sameOfWrites (ready : Ready ctx) {name : Text} {tID : TypeID} {nmemb : Int} {data : Pointer}
    {tSize : Nat} {buffer : Bytes}
    (typed : getTypeSize tID = .ok tSize) (there : ctx.memory.blocks data = some buffer)
    (length : (buffer.length : Int) = tSize * nmemb)
    (writes : Writes ctx name tID nmemb data) {pDC : DataContext} (known : ctx.storeMap name = some pDC)
    (some_ : data ≠ 0) : ∃ recorded, getTypeSize pDC.tID = .ok recorded ∧
      (recorded * pDC.nmemb) % 2^32 = tSize * nmemb := by
  obtain ⟨size,block,count,source,whole⟩ := ready name pDC known
  obtain ⟨recorded,told,rfl⟩ := copySizeOf count
  have got : ctx.memory.read pDC.data (unsignedSize recorded pDC.nmemb) =
      .ok (block.take (unsignedSize recorded pDC.nmemb).toNat) := readFits source whole.ge
  refine ⟨recorded,told,?_⟩
  change unsignedSize recorded pDC.nmemb = tSize * nmemb
  cases writes with
  | @aborts e failed defined_ =>
    simp only [store,storeData,if_neg some_,known,count,got,bind,Except.bind] at failed
    split at failed <;> try contradiction
    next wrote =>
    unfold Memory.write at wrote
    rw [there] at wrote
    dsimp only at wrote
    split at wrote <;> try contradiction
    cases wrote
    cases failed
    exact absurd rfl defined_
  | copies done entry typed' source' enough wrote =>
    cases known.symm.trans entry
    cases typed.symm.trans typed'
    cases source.symm.trans source'
    -- the entry has the bytes, and the whole of it fits into the buffer
    obtain ⟨_,_,_,_,entry',count',read,_,wrote'⟩ := storeDone done
    cases known.symm.trans entry'
    cases count.symm.trans count'
    cases got.symm.trans read
    obtain ⟨target,at_,fits,_⟩ := writeDone wrote'
    cases there.symm.trans at_
    rw [List.length_take] at fits
    omega

theorem writesOfSame (ready : Ready ctx) {name : Text} {tID : TypeID} {nmemb : Int} {data : Pointer}
    {tSize : Nat} {buffer : Bytes}
    (typed : getTypeSize tID = .ok tSize) (there : ctx.memory.blocks data = some buffer)
    (length : (buffer.length : Int) = tSize * nmemb)
    (same : ∀ pDC, ctx.storeMap name = some pDC → data ≠ 0 → ∃ recorded,
      getTypeSize pDC.tID = .ok recorded ∧ (recorded * pDC.nmemb) % 2^32 = tSize * nmemb) :
    Writes ctx name tID nmemb data := by
  by_cases null : data = 0
  · refine .aborts (e := .assertion "Cannot store data back to NULL pointer") ?_ nofun
    rw [store,storeData,if_pos null]
    rfl
  cases known : ctx.storeMap name with
  | none =>
    refine .aborts (e := .failed "Cannot find information of store" [name]) ?_ nofun
    simp only [store,storeData,if_neg null,known,bind,Except.bind]
    rfl
  | some pDC =>
    obtain ⟨recorded,told,equal⟩ := same pDC known null
    obtain ⟨size,block,count,source,whole⟩ := ready name pDC known
    obtain ⟨recorded',told',size_⟩ := copySizeOf count
    cases told.symm.trans told'
    replace size_ : size = tSize * nmemb := size_.trans equal
    subst size_
    have got : ctx.memory.read pDC.data (tSize * nmemb) = .ok (block.take (tSize * nmemb).toNat) :=
      readFits source whole.ge
    have fits : 0 + (block.take ((tSize : Int) * nmemb).toNat).length ≤ buffer.length := by
      rw [List.length_take]
      omega
    have wrote := writeFits there fits
    exact .copies (by
      simp only [store,storeData,if_neg null,known,count,got,wrote,bind,Except.bind]
      rfl) known typed source whole.ge wrote

/- For every store map that runtimeInit takes and every run on it: a call on a buffer of
its own type and length aborts or fills it exactly when what was recorded has the same
size, unless there is no such store. -/
theorem storesExactlyIff {names : List Text} {start begin_ : PIContext} (heap : Heap start.memory)
    (keys : ∀ name, (start.storeMap name).isSome → name ∈ names)
    (init : runtimeInit start names = .ok begin_) (later : Later begin_ ctx)
    {name : Text} {tID : TypeID} {nmemb : Int} {data : Pointer} {tSize : Nat} {buffer : Bytes}
    (typed : getTypeSize tID = .ok tSize) (there : ctx.memory.blocks data = some buffer)
    (length : (buffer.length : Int) = tSize * nmemb) :
    Writes ctx name tID nmemb data ↔
      ∀ pDC, ctx.storeMap name = some pDC → data ≠ 0 → ∃ recorded,
        getTypeSize pDC.tID = .ok recorded ∧ (recorded * pDC.nmemb) % 2^32 = tSize * nmemb := by
  have ready : Ready begin_ := by
    refine runtimeInitReady heap (fun name pDC absent found => absurd (keys name ?_) absent) init
    rw [found]
    rfl
  have ready := laterReady ready later
  exact ⟨fun writes pDC known some_ => sameOfWrites ready typed there length writes known some_,
    writesOfSame ready typed there length⟩

end

/- A model of one store, y of four ints, and a program with a buffer of some bytes. -/
def yModel : FS := fun path =>
  if path = [piDir] ∨ path = [piDir,['m']] then some .dir
  else if path = storePath ['m'] .one then some (.file (recordsText [(['y'],(.i,4))])) else none

def fourInts : StoreMap := asMap (Function.update (fun _ => none) ['y'] (some (.i,4)))

theorem readFourInts : readStoreInfo yModel [['m']] (fun _ => none) = .ok fourInts := by
  have described : Described yModel (fun _ => [(['y'],(.i,4))]) [['m']] := by
    intro name member
    cases List.mem_singleton.mp member
    refine .inr ⟨by decide,⟨rfl,.inl rfl⟩,fun r inside => ?_⟩
    cases List.mem_singleton.mp inside
    exact ⟨by decide,by decide,by decide,by decide⟩
  have finished : Finished (fun _ => none) := fun _ _ h => by cases h
  exact readEntries described finished

def withBuffer (size : Nat) : PIContext where
  status := .test
  trainNum := 0
  trainIt := 0
  validNum := 0
  validIt := 0
  loadMap := fun _ => none
  storeMap := fourInts
  storeModelMap := fun _ => none
  memory := ⟨Function.update (fun _ => none) 1 (some (List.replicate size 0)),2⟩
  modPath := []

theorem bufferHeap (size : Nat) : Heap (withBuffer size).memory := by
  have empty : Heap ⟨fun _ => none,1⟩ := ⟨⟨Nat.one_pos,nofun⟩,rfl⟩
  exact heapPut empty (p := 1) Nat.one_ne_zero (Nat.le_succ 1) (Nat.lt_succ_self 1)

theorem fourKeys : ∀ name, (fourInts name).isSome → name ∈ [['y']] := by
  intro name there
  by_contra other
  have none_ : fourInts name = none := by
    simp only [fourInts,asMap,Function.update_of_ne (fun same => other (List.mem_singleton.mpr same)),
      Option.map_none]
  rw [none_] at there
  cases there

/- Four ints fill a buffer of four ints. -/
theorem fourIntsWritten : ∃ begin_, runtimeInit (withBuffer 16) [['y']] = .ok begin_ ∧
    Writes begin_ ['y'] .i 4 1 := by
  refine ⟨_,rfl,(storesExactlyIff (bufferHeap 16) fourKeys rfl .begin rfl rfl rfl).mpr ?_⟩
  intro pDC known _
  cases known
  exact ⟨4,rfl,rfl⟩

/- And run over a buffer of one. -/
theorem fourIntsOverrun : ¬ ∀ (fs : FS) (entries names : List Text) (start begin_ ctx : PIContext)
    (name : Text) (tID : TypeID) (nmemb : Int) (data : Pointer) (tSize : Nat) (buffer : Bytes),
    Heap start.memory → readStoreInfo fs entries (fun _ => none) = .ok start.storeMap →
      (∀ name, (start.storeMap name).isSome → name ∈ names) →
      runtimeInit start names = .ok begin_ → Later begin_ ctx → getTypeSize tID = .ok tSize →
      ctx.memory.blocks data = some buffer → (buffer.length : Int) = tSize * nmemb →
      Writes ctx name tID nmemb data := by
  intro all
  have writes := all yModel [['m']] [['y']] (withBuffer 4) _ _ ['y'] .i 1 1 4 _ (bufferHeap 4)
    readFourInts fourKeys rfl .begin rfl rfl rfl
  cases writes with
  | aborts failed defined_ =>
    cases failed
    exact defined_ rfl
  | copies done entry typed source enough wrote =>
    cases done

end Autonomizer.StoreBack
