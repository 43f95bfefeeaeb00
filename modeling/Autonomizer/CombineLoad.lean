import Mathlib
import Autonomizer.ProgIntel
import Autonomizer.Trace

/-! PIContext::combineLoad between calls that load its parts anew: what the buffer of a
combined load holds, and that nothing is accessed outside a block. -/
namespace Autonomizer.CombineLoad
open CPIO (Bytes)
open Data Format PIInc ProgIntel Trace

/- The calls that change loadMap, and the writes of the program to its own memory. -/
inductive LoadCall where
  | piLoad (name : Text) (tID : TypeID) (nmemb : Int) (data : Pointer) (doAlloc : Bool)
  | piLoadCB (name : Text) (tID : TypeID) (nmemb : Int) (cb : Bytes)
  | piNN (loadNames : List Text)
  | poke (data : Pointer) (bytes : Bytes)

def step (ctx : PIContext) : LoadCall → Except Stop PIContext
  | .piLoad name tID nmemb data doAlloc => load ctx name tID nmemb data doAlloc
  | .piLoadCB name tID nmemb cb => loadCB ctx name tID nmemb cb
  | .piNN loadNames => combineLoad ctx loadNames
  | .poke data bytes => .ok (poke ctx data bytes)

def typeBytes (tID : TypeID) : Nat :=
  match getTypeSize tID with
  | .ok size => size
  | .error _ => 0

def dataSize (pDC : DataContext) : Int := typeBytes pDC.tID * pDC.nmemb

def recordedSize (ctx : PIContext) (name : Text) (tID : TypeID) (nmemb : Int) : Int :=
  match ctx.loadMap name with
  | some pDC => dataSize pDC
  | none => typeBytes tID * nmemb

def Holds (m : Memory) (p : Pointer) (size : Int) : Prop :=
  ∃ block, m.blocks p = some block ∧ size ≤ block.length

def Combines (ctx : PIContext) (data : Pointer) : Prop :=
  ∃ name pDC, ctx.loadMap name = some pDC ∧ pDC.combinedLoad ≠ [] ∧ pDC.data = data

def nmembOf (ctx : PIContext) (part : Text) : Int :=
  ((ctx.loadMap part).map DataContext.nmemb).getD 0

def partsNmemb (ctx : PIContext) (name : Text) : Int := ((tokens name).map (nmembOf ctx)).sum

/- A call stays within what is recorded: sizes are those of an int and not negative, the
program hands over memory of its own that holds what will be read, a callback fills no
more than the buffer has, and no array shrinks below what is recorded of it. -/
def Fits (ctx : PIContext) : LoadCall → Prop
  | .piLoad name tID nmemb data _ => 0 ≤ nmemb ∧ typeBytes tID * nmemb < 2^31 ∧
      (data ≠ 0 → Holds ctx.memory data (recordedSize ctx name tID nmemb) ∧ ¬ Combines ctx data)
  | .piLoadCB name tID nmemb cb => 0 ≤ nmemb ∧ typeBytes tID * nmemb < 2^31 ∧
      cb.length ≤ recordedSize ctx name tID nmemb
  | .piNN loadNames => ∀ name ∈ loadNames, '_' ∈ name → ctx.loadMap name = none →
      name.length < 256 ∧ 8 * partsNmemb ctx name < 2^31
  | .poke data bytes => data ≠ 0 ∧ ∀ name pDC, ctx.loadMap name = some pDC → pDC.data = data →
      pDC.combinedLoad = [] ∧ dataSize pDC ≤ bytes.length

def Combined (ctx : PIContext) (name : Text) : Prop :=
  ∃ pCDC parts values, ctx.loadMap name = some pCDC ∧ pCDC.tID = .d ∧
    (tokens name).map ctx.loadMap = parts.map some ∧
    pCDC.nmemb = (parts.map DataContext.nmemb).sum ∧
    List.Forall₂ (fun (pLDC : DataContext) vs => pLDC.values ctx.memory = .ok vs) parts values ∧
    ctx.memory.blocks pCDC.data = some (values.flatten.flatMap (fun v => doubleBytes v.toDouble))

/- A computation that touches nothing outside a block, and what it returns. -/
def Safely {α : Type} (r : Except Stop α) (Q : α → Prop) : Prop :=
  match r with
  | .ok a => Q a
  | .error e => e ≠ .undefined

section
variable {α β : Type} {Q : β → Prop} {R : α → Prop}

@[simp] theorem safelyOk (a : α) : Safely (.ok a) R ↔ R a := Iff.rfl

@[simp] theorem safelyPure (a : α) : Safely (pure a) R ↔ R a := Iff.rfl

@[simp] theorem safelyError (e : Stop) : Safely (.error e : Except Stop α) R ↔ e ≠ .undefined :=
  Iff.rfl

@[simp] theorem safelyThrow (e : Stop) :
    Safely (throw e : Except Stop α) R ↔ e ≠ .undefined := Iff.rfl

@[simp] theorem safelyBind {r : Except Stop α} {f : α → Except Stop β} :
    Safely (r >>= f) Q ↔ Safely r (fun a => Safely (f a) Q) := by
  cases r <;> exact Iff.rfl

theorem safelyMono {r : Except Stop α} {S : α → Prop} (safely : Safely r R)
    (weaker : ∀ a, R a → S a) : Safely r S := by
  cases r with
  | ok a => exact weaker a safely
  | error e => exact safely

end

/- An entry made by combineLoad. -/
structure CombinedEntry (ctx : PIContext) (name : Text) (pDC : DataContext) : Prop where
  double : pDC.tID = .d
  owned : pDC.doAlloc = true
  named : '_' ∈ name
  parts : pDC.combinedLoad = tokens name
  known : ∀ part ∈ tokens name, (ctx.loadMap part).isSome
  total : pDC.nmemb = partsNmemb ctx name
  size : ∃ block, ctx.memory.blocks pDC.data = some block ∧ (block.length : Int) = 8 * pDC.nmemb

structure Consistent (ctx : PIContext) : Prop where
  recorded : ∀ name pDC, ctx.loadMap name = some pDC →
    0 ≤ pDC.nmemb ∧ dataSize pDC < 2^31 ∧ Holds ctx.memory pDC.data (dataSize pDC)
  fresh : 0 < ctx.memory.fresh ∧ ∀ p block, ctx.memory.blocks p = some block → p < ctx.memory.fresh
  combined : ∀ name pDC, ctx.loadMap name = some pDC → pDC.combinedLoad ≠ [] →
    CombinedEntry ctx name pDC
  own : ∀ name pDC, ctx.loadMap name = some pDC → pDC.combinedLoad ≠ [] →
    ∀ other pOther, ctx.loadMap other = some pOther → pOther.data = pDC.data → other = name

/- Every block keeps its length, and malloc goes on from where it was or later. -/
def SameSizes (m next : Memory) : Prop :=
  m.fresh ≤ next.fresh ∧ ∀ p block, m.blocks p = some block →
    ∃ after, next.blocks p = some after ∧ after.length = block.length

def Formed (m : Memory) : Prop :=
  0 < m.fresh ∧ ∀ p block, m.blocks p = some block → p < m.fresh

theorem sameSizesRefl (m : Memory) : SameSizes m m :=
  ⟨le_rfl,fun _ block there => ⟨block,there,rfl⟩⟩

theorem sameSizesTrans {m mid next : Memory} (first : SameSizes m mid)
    (second : SameSizes mid next) : SameSizes m next := by
  refine ⟨first.1.trans second.1,fun p block there => ?_⟩
  obtain ⟨between,found,same⟩ := first.2 p block there
  obtain ⟨after,last,equal⟩ := second.2 p between found
  exact ⟨after,last,equal.trans same⟩

theorem holdsKept {m next : Memory} {p : Pointer} {size : Int} (kept : SameSizes m next)
    (held : Holds m p size) : Holds next p size := by
  obtain ⟨block,there,fits⟩ := held
  obtain ⟨after,found,same⟩ := kept.2 p block there
  exact ⟨after,found,same ▸ fits⟩

theorem writeInside {m : Memory} {p : Pointer} {block bytes : Bytes} {offset : Nat}
    (formed : Formed m) (there : m.blocks p = some block)
    (fits : offset + bytes.length ≤ block.length) :
    Safely (m.write p offset bytes) (fun next => SameSizes m next ∧ Formed next ∧
      next.fresh = m.fresh ∧ ∀ q, next.blocks q = if q = p then
        some (block.take offset ++ bytes ++ block.drop (offset + bytes.length)) else m.blocks q) := by
  rw [writeFits there fits,safelyOk]
  have blocks : ∀ q, (Function.update m.blocks p
      (some (block.take offset ++ bytes ++ block.drop (offset + bytes.length)))) q = if q = p then
      some (block.take offset ++ bytes ++ block.drop (offset + bytes.length)) else m.blocks q :=
    fun q => Function.update_apply ..
  refine ⟨⟨le_rfl,fun q old found => ?_⟩,⟨formed.1,fun q new found => ?_⟩,rfl,blocks⟩
  · show ∃ after, Function.update m.blocks p _ q = some after ∧ _
    rw [blocks]
    split
    · next same =>
      rw [same,there] at found
      cases found
      exact ⟨_,rfl,writtenLength fits⟩
    · exact ⟨old,found,rfl⟩
  · show q < m.fresh
    replace found : Function.update m.blocks p _ q = some new := found
    rw [blocks] at found
    split at found
    · next same => exact same ▸ formed.2 p block there
    · exact formed.2 q new found

theorem readHeld {m : Memory} {p : Pointer} {size : Int} (held : Holds m p size) :
    Safely (m.read p size) (fun bytes => (bytes.length : Int) = max size 0) := by
  obtain ⟨block,there,fits⟩ := held
  rw [readFits there fits,safelyOk,List.length_take]
  omega

theorem typeSizeSafely (tID : TypeID) : Safely (getTypeSize tID) (fun size => size = typeBytes tID) := by
  cases tID <;> simp [getTypeSize,typeBytes]

theorem byteCountSafely {tID : TypeID} {nmemb : Int} (least : 0 ≤ nmemb)
    (fits : typeBytes tID * nmemb < 2^31) :
    Safely (byteCount (typeBytes tID) nmemb) (fun size => size = typeBytes tID * nmemb) := by
  have positive : 0 ≤ (typeBytes tID : Int) * nmemb := mul_nonneg (Int.natCast_nonneg _) least
  rw [byteCount,if_pos ⟨by omega,fits⟩,safelyOk]

theorem mallocSafely {m next : Memory} {p : Pointer} {size : Int} (formed : Formed m)
    (least : 0 ≤ size) (made : m.malloc size = (p,next)) :
    p = m.fresh ∧ SameSizes m next ∧ Formed next ∧ Holds next p size ∧
      (∀ q, q ≠ p → next.blocks q = m.blocks q) ∧
      ∃ block, next.blocks p = some block ∧ (block.length : Int) = size := by
  rw [Memory.malloc,if_neg (by omega)] at made
  cases made
  have block : (Function.update m.blocks m.fresh (some (List.replicate size.toNat 0))) m.fresh =
    some (List.replicate size.toNat 0) := Function.update_self ..
  have others : ∀ q, q ≠ m.fresh → (Function.update m.blocks m.fresh
      (some (List.replicate size.toNat 0))) q = m.blocks q := fun q ne => Function.update_of_ne ne ..
  refine ⟨rfl,⟨Nat.le_succ _,fun q old found => ⟨old,?_,rfl⟩⟩,⟨Nat.succ_pos _,fun q new found => ?_⟩,
    ⟨_,block,by simp [Int.toNat_of_nonneg least]⟩,others,_,block,by simp [Int.toNat_of_nonneg least]⟩
  · rw [← found]
    exact others q (Nat.ne_of_lt (formed.2 q old found))
  · by_cases same : q = m.fresh
    · exact same ▸ Nat.lt_succ_self _
    · exact Nat.lt_succ_of_lt (formed.2 q new ((others q same) ▸ found))

theorem newSafely {m : Memory} {tID : TypeID} {nmemb : Int} {doAlloc : Bool} (formed : Formed m)
    (least : 0 ≤ nmemb) (fits : typeBytes tID * nmemb < 2^31) :
    Safely (DataContext.new m tID nmemb doAlloc) (fun made =>
      made.1 = ⟨tID,nmemb,made.1.data,doAlloc,[]⟩ ∧ SameSizes m made.2 ∧ Formed made.2 ∧
      (∀ q, q ≠ m.fresh → made.2.blocks q = m.blocks q) ∧
      (doAlloc = true → made.1.data = m.fresh ∧ ∃ block, made.2.blocks made.1.data = some block ∧
        (block.length : Int) = typeBytes tID * nmemb)) := by
  unfold DataContext.new
  cases doAlloc with
  | false => exact ⟨rfl,sameSizesRefl m,formed,fun _ _ => rfl,fun owned => nomatch owned⟩
  | true =>
    simp only [if_true,safelyBind]
    refine safelyMono (typeSizeSafely tID) fun size sized => ?_
    subst sized
    refine safelyMono (byteCountSafely least fits) fun bytes counted => ?_
    subst counted
    rcases taken : m.malloc (typeBytes tID * nmemb) with ⟨place,next⟩
    obtain ⟨here,kept,after,_,others,block⟩ :=
      mallocSafely formed (mul_nonneg (Int.natCast_nonneg _) least) taken
    exact ⟨rfl,kept,after,fun q ne => others q (here ▸ ne),fun _ => ⟨here,block⟩⟩

theorem setDataSafely {pDC : DataContext} {m : Memory} {data : Pointer} (formed : Formed m)
    (least : 0 ≤ pDC.nmemb) (fits : dataSize pDC < 2^31)
    (handed : data ≠ 0 → Holds m data (dataSize pDC))
    (room : pDC.doAlloc = true → Holds m pDC.data (dataSize pDC)) :
    Safely (pDC.setData m data) (fun set => data ≠ 0 ∧ SameSizes m set.2 ∧ Formed set.2 ∧
      set.1 = if pDC.doAlloc then pDC else { pDC with data }) := by
  unfold DataContext.setData
  by_cases null : data = 0
  · simp [null]
  · cases owned : pDC.doAlloc with
    | false => simpa [null] using ⟨sameSizesRefl m,formed⟩
    | true =>
      simp only [null,if_false,if_true,safelyBind]
      refine safelyMono (typeSizeSafely pDC.tID) fun size sized => ?_
      subst sized
      refine safelyMono (byteCountSafely least fits) fun bytes counted => ?_
      subst counted
      refine safelyMono (readHeld (handed null)) fun copied length => ?_
      obtain ⟨block,there,large⟩ := room owned
      have positive : 0 ≤ dataSize pDC := mul_nonneg (Int.natCast_nonneg _) least
      have enough : 0 + copied.length ≤ block.length := by
        change (copied.length : Int) = max (dataSize pDC) 0 at length
        omega
      exact safelyMono (writeInside formed there enough) fun next written =>
        ⟨null,written.1,written.2.1,rfl⟩

theorem consistentFormed {ctx : PIContext} (consistent : Consistent ctx) : Formed ctx.memory :=
  consistent.fresh

theorem consistentMemory {ctx : PIContext} {m : Memory} (consistent : Consistent ctx)
    (kept : SameSizes ctx.memory m) (formed : Formed m) : Consistent { ctx with memory := m } where
  recorded name pDC known :=
    have old := consistent.recorded name pDC known
    ⟨old.1,old.2.1,holdsKept kept old.2.2⟩
  fresh := formed
  combined name pDC known made := by
    have old := consistent.combined name pDC known made
    obtain ⟨block,there,size⟩ := old.size
    obtain ⟨after,found,same⟩ := kept.2 _ block there
    exact ⟨old.double,old.owned,old.named,old.parts,old.known,old.total,after,found,same ▸ size⟩
  own := consistent.own

theorem consistentPut {ctx : PIContext} {m : Memory} {name : Text} {pDC : DataContext}
    (consistent : Consistent ctx) (kept : SameSizes ctx.memory m) (formed : Formed m)
    (least : 0 ≤ pDC.nmemb) (fits : dataSize pDC < 2^31) (holds : Holds m pDC.data (dataSize pDC))
    (plain : pDC.combinedLoad = []) (apart : ¬ Combines ctx pDC.data)
    (same : ∀ old, ctx.loadMap name = some old → old.nmemb = pDC.nmemb) :
    Consistent { ctx with loadMap := Function.update ctx.loadMap name (some pDC), memory := m } := by
  have entry : ∀ other pOther, Function.update ctx.loadMap name (some pDC) other = some pOther →
      (other = name ∧ pOther = pDC) ∨ ctx.loadMap other = some pOther := by
    intro other pOther found
    rw [Function.update_apply] at found
    split at found
    · next here =>
      cases found
      exact .inl ⟨here,rfl⟩
    · exact .inr found
  -- a combined load is an entry from before, and its parts are still there
  have before : ∀ other pOther, Function.update ctx.loadMap name (some pDC) other = some pOther →
      pOther.combinedLoad ≠ [] → ctx.loadMap other = some pOther := by
    intro other pOther found made
    rcases entry other pOther found with ⟨_,here⟩ | old
    · exact absurd (here ▸ plain) made
    · exact old
  have lengths : ∀ part, (ctx.loadMap part).isSome →
      (Function.update ctx.loadMap name (some pDC) part).map DataContext.nmemb =
        (ctx.loadMap part).map DataContext.nmemb := by
    intro part known
    obtain ⟨old,found⟩ := Option.isSome_iff_exists.mp known
    rw [Function.update_apply]
    split
    · next here => rw [found,Option.map_some,Option.map_some,same old (here ▸ found)]
    · rfl
  have kept' := consistentMemory consistent kept formed
  refine ⟨fun other pOther found => ?_,formed,fun other pOther found made => ?_,
    fun other pOther found made third pThird present shared => ?_⟩
  · rcases entry other pOther found with ⟨_,here⟩ | old
    · rw [here]
      exact ⟨least,fits,holds⟩
    · exact kept'.recorded other pOther old
  · have old := kept'.combined other pOther (before other pOther found made) made
    have known : ∀ part ∈ tokens other,
        (Function.update ctx.loadMap name (some pDC) part).isSome := by
      intro part among
      rw [← Option.isSome_map,lengths part (old.known part among),Option.isSome_map]
      exact old.known part among
    refine ⟨old.double,old.owned,old.named,old.parts,known,old.total.trans ?_,old.size⟩
    refine congrArg List.sum (List.map_congr_left fun part among => ?_)
    exact congrArg (Option.getD · 0) (lengths part (old.known part among)).symm
  · have old := before other pOther found made
    rcases entry third pThird present with ⟨_,here⟩ | second
    · exact absurd ⟨other,pOther,old,made,shared.symm.trans (congrArg _ here)⟩ apart
    · exact consistent.own other pOther old made third pThird second shared

theorem freshApart {ctx : PIContext} (consistent : Consistent ctx) :
    ¬ Combines ctx ctx.memory.fresh := by
  rintro ⟨name,pDC,known,made,here⟩
  obtain ⟨block,there,_⟩ := (consistent.combined name pDC known made).size
  exact absurd (here ▸ consistent.fresh.2 _ block there) (Nat.lt_irrefl _)

theorem ownedCombined {ctx : PIContext} {name : Text} {pDC : DataContext}
    (consistent : Consistent ctx) (known : ctx.loadMap name = some pDC)
    (borrowed : pDC.doAlloc = false) : pDC.combinedLoad = [] := by
  by_contra made
  have owned := (consistent.combined name pDC known made).owned
  exact absurd (owned.symm.trans borrowed) (by decide)

theorem loadFits {ctx : PIContext} {name : Text} {tID : TypeID} {nmemb : Int} {data : Pointer}
    {doAlloc : Bool} (consistent : Consistent ctx) (fits : Fits ctx (.piLoad name tID nmemb data doAlloc)) :
    Safely (load ctx name tID nmemb data doAlloc) Consistent := by
  obtain ⟨least,small,handed⟩ := fits
  have formed := consistentFormed consistent
  unfold load
  cases known : ctx.loadMap name with
  | some pDC =>
    obtain ⟨recorded,bounded,room⟩ := consistent.recorded name pDC known
    simp only [contextOf,safelyBind,safelyOk]
    rw [recordedSize,known] at handed
    refine safelyMono (setDataSafely formed recorded bounded (fun ne => (handed ne).1)
      (fun _ => room)) fun set done => ?_
    obtain ⟨ne,kept,after,result⟩ := done
    cases owned : pDC.doAlloc with
    | true =>
      rw [owned,if_pos rfl] at result
      have unchanged : Function.update ctx.loadMap name (some pDC) = ctx.loadMap := by
        rw [← known,Function.update_eq_self]
      simpa [result,unchanged] using consistentMemory consistent kept after
    | false =>
      rw [owned,if_neg (by decide)] at result
      rw [safelyPure,result]
      exact consistentPut consistent kept after recorded bounded (holdsKept kept (handed ne).1)
        (show pDC.combinedLoad = [] from ownedCombined consistent known owned) (handed ne).2
        (fun old found => by rw [known] at found; cases found; rfl)
  | none =>
    rw [recordedSize,known] at handed
    simp only [contextOf,safelyBind]
    refine safelyMono (newSafely formed least small) fun made shape => ?_
    obtain ⟨made,m⟩ := made
    obtain ⟨shape,grown,between,_,place⟩ := shape
    dsimp only at shape grown between place
    have size : dataSize made = typeBytes tID * nmemb := by rw [shape]; rfl
    refine safelyMono (setDataSafely between (shape ▸ least) (size ▸ small)
      (fun ne => size ▸ holdsKept grown (handed ne).1) (fun owned => ?_)) fun set done => ?_
    · rw [shape] at owned
      obtain ⟨block,there,length⟩ := (place owned).2
      exact ⟨block,there,by rw [size,length]⟩
    obtain ⟨ne,kept,after,result⟩ := done
    have absent : ∀ old, ctx.loadMap name = some old → old.nmemb = set.1.nmemb :=
      fun old found => by rw [known] at found; cases found
    have whole := sameSizesTrans grown kept
    rw [safelyPure]
    cases doAlloc with
    | true =>
      rw [shape,if_pos rfl,← shape] at result
      obtain ⟨here,block,there,length⟩ := place rfl
      obtain ⟨last,found,same⟩ := kept.2 _ block there
      rw [result] at absent ⊢
      exact consistentPut consistent whole after (shape ▸ least) (size ▸ small)
        ⟨last,found,by rw [size,← length,same]⟩ (shape ▸ rfl) (here ▸ freshApart consistent) absent
    | false =>
      rw [shape,if_neg Bool.false_ne_true] at result
      rw [result] at absent ⊢
      exact consistentPut consistent whole after least small (holdsKept whole (handed ne).1)
        rfl (handed ne).2 absent

theorem loadCBFits {ctx : PIContext} {name : Text} {tID : TypeID} {nmemb : Int} {cb : Bytes}
    (consistent : Consistent ctx) (fits : Fits ctx (.piLoadCB name tID nmemb cb)) :
    Safely (loadCB ctx name tID nmemb cb) Consistent := by
  obtain ⟨least,small,filled⟩ := fits
  have formed := consistentFormed consistent
  unfold loadCB
  cases known : ctx.loadMap name with
  | some pDC =>
    obtain ⟨_,_,block,there,room⟩ := consistent.recorded name pDC known
    replace filled : cb.length ≤ dataSize pDC := by simpa only [recordedSize,known] using filled
    simp only [contextOf,safelyBind,safelyOk]
    refine safelyMono (writeInside formed there (by omega)) fun m written => ?_
    have unchanged : Function.update ctx.loadMap name (some pDC) = ctx.loadMap := by
      rw [← known,Function.update_eq_self]
    simpa [unchanged] using consistentMemory consistent written.1 written.2.1
  | none =>
    replace filled : cb.length ≤ typeBytes tID * nmemb := by
      simpa only [recordedSize,known] using filled
    simp only [contextOf,safelyBind]
    refine safelyMono (newSafely formed least small) fun made shape => ?_
    obtain ⟨made,m⟩ := made
    obtain ⟨shape,grown,between,_,place⟩ := shape
    dsimp only at shape grown between place
    obtain ⟨here,block,there,length⟩ := place rfl
    have size : dataSize made = typeBytes tID * nmemb := by rw [shape]; rfl
    refine safelyMono (writeInside between there (by omega)) fun after written => ?_
    have whole := sameSizesTrans grown written.1
    refine (safelyPure _).mpr (consistentPut consistent whole written.2.1 (shape ▸ least)
      (size ▸ small) (holdsKept written.1 ⟨block,there,by rw [size,length]⟩) (shape ▸ rfl)
      (here ▸ freshApart consistent) (fun old found => ?_))
    rw [known] at found
    cases found

theorem pokeFits {ctx : PIContext} {data : Pointer} {bytes : Bytes} (consistent : Consistent ctx)
    (fits : Fits ctx (.poke data bytes)) : Consistent (poke ctx data bytes) := by
  have place : ∀ p, (poke ctx data bytes).memory.blocks p =
      if p = data then some bytes else ctx.memory.blocks p := fun p => Function.update_apply ..
  refine ⟨fun name pDC known => ?_,⟨?_,fun p block there => ?_⟩,fun name pDC known made => ?_,
    consistent.own⟩
  · obtain ⟨least,small,block,there,room⟩ := consistent.recorded name pDC known
    refine ⟨least,small,?_⟩
    by_cases here : pDC.data = data
    · exact ⟨bytes,by rw [place,if_pos here],(fits.2 name pDC known here).2⟩
    · exact ⟨block,by rw [place,if_neg here,there],room⟩
  · exact lt_of_lt_of_le (Nat.succ_pos data) (le_max_right ..)
  · rw [place] at there
    split at there
    · next here => exact lt_of_lt_of_le (here ▸ Nat.lt_succ_self data) (le_max_right ..)
    · exact lt_of_lt_of_le (consistent.fresh.2 p block there) (le_max_left ..)
  · have old := consistent.combined name pDC known made
    have apart : pDC.data ≠ data := fun here => made (fits.2 name pDC known here).1
    obtain ⟨block,there,length⟩ := old.size
    exact ⟨old.double,old.owned,old.named,old.parts,old.known,old.total,
      block,by rw [place,if_neg apart,there],length⟩

theorem splitPlain (text : Text) : ∀ piece ∈ text.splitOn '_', '_' ∉ piece := by
  induction text with
  | nil => simp
  | cons c text ih =>
    rw [List.splitOn_cons_eq_if_modifyHead]
    split
    · simpa using ih
    · next other =>
      obtain ⟨first,rest,pieces⟩ := List.exists_cons_of_ne_nil (List.splitOn_ne_nil '_' text)
      rw [pieces] at ih ⊢
      rw [List.modifyHead_cons,List.forall_mem_cons]
      refine ⟨fun inside => ?_,fun piece among => ih piece (List.mem_cons_of_mem _ among)⟩
      cases List.mem_cons.mp inside with
      | inl here => exact other (by rw [← here,beq_self_eq_true])
      | inr deeper => exact ih first List.mem_cons_self deeper

theorem tokensPlain {name part : Text} (among : part ∈ tokens name) : '_' ∉ part :=
  splitPlain name part (List.mem_filter.mp among).1

theorem nmembOfKnown {ctx : PIContext} {part : Text} {pDC : DataContext}
    (known : ctx.loadMap part = some pDC) : nmembOf ctx part = pDC.nmemb := by
  rw [nmembOf,known,Option.map_some,Option.getD_some]

theorem nmembOfLeast {ctx : PIContext} (consistent : Consistent ctx) (part : Text) :
    0 ≤ nmembOf ctx part := by
  cases known : ctx.loadMap part with
  | none => rw [nmembOf,known]; exact le_rfl
  | some pDC => exact nmembOfKnown known ▸ (consistent.recorded part pDC known).1

theorem combinedNmembFits {ctx : PIContext} (consistent : Consistent ctx) (parts : List Text)
    (nmemb : Int) (small : 8 * (nmemb + (parts.map (nmembOf ctx)).sum) < 2^31) (least : 0 ≤ nmemb) :
    Safely (combinedNmemb ctx parts nmemb) (fun total =>
      total = nmemb + (parts.map (nmembOf ctx)).sum ∧ ∀ part ∈ parts, (ctx.loadMap part).isSome) := by
  induction parts generalizing nmemb with
  | nil => simp [combinedNmemb]
  | cons part rest ih =>
    have later : 0 ≤ (rest.map (nmembOf ctx)).sum := by
      refine List.sum_nonneg fun n among => ?_
      obtain ⟨other,_,rfl⟩ := List.mem_map.mp among
      exact nmembOfLeast consistent other
    cases known : ctx.loadMap part with
    | none => simp [combinedNmemb,known]
    | some pDC =>
      have first := nmembOfLeast consistent part
      have here := nmembOfKnown known
      rw [List.map_cons,List.sum_cons] at small
      have fits : nmemb + pDC.nmemb < 2^31 := by omega
      simp only [combinedNmemb,known,if_pos fits]
      refine safelyMono (ih (nmemb + pDC.nmemb) (by omega) (by omega)) fun total result => ?_
      obtain ⟨rfl,all⟩ := result
      exact ⟨by rw [List.map_cons,List.sum_cons]; omega,by simpa [known] using all⟩

/- What combineLoad records for a name it has not seen. -/
def combinedEntry (ctx : PIContext) (name : Text) : DataContext :=
  ⟨.d,partsNmemb ctx name,ctx.memory.fresh,true,tokens name⟩

theorem partsApart {ctx : PIContext} {name other part : Text} {entry : Option DataContext}
    (named : '_' ∈ name) (among : part ∈ tokens other) :
    Function.update ctx.loadMap name entry part = ctx.loadMap part :=
  Function.update_of_ne (fun here => tokensPlain (here ▸ among) named) ..

theorem consistentCombine {ctx : PIContext} {m : Memory} {name : Text} {block : Bytes}
    (consistent : Consistent ctx) (kept : SameSizes ctx.memory m) (formed : Formed m)
    (named : '_' ∈ name)
    (all : ∀ part ∈ tokens name, (ctx.loadMap part).isSome) (least : 0 ≤ partsNmemb ctx name)
    (small : 8 * partsNmemb ctx name < 2^31) (there : m.blocks ctx.memory.fresh = some block)
    (length : (block.length : Int) = 8 * partsNmemb ctx name) :
    Consistent { ctx with
      loadMap := Function.update ctx.loadMap name (some (combinedEntry ctx name)), memory := m } := by
  have kept' := consistentMemory consistent kept formed
  have entry : ∀ other pOther,
      Function.update ctx.loadMap name (some (combinedEntry ctx name)) other = some pOther →
      (other = name ∧ pOther = combinedEntry ctx name) ∨ ctx.loadMap other = some pOther := by
    intro other pOther found
    rw [Function.update_apply] at found
    split at found
    · next here =>
      cases found
      exact .inl ⟨here,rfl⟩
    · exact .inr found
  have totals : ∀ other, partsNmemb { ctx with
      loadMap := Function.update ctx.loadMap name (some (combinedEntry ctx name)), memory := m } other =
      partsNmemb ctx other := by
    intro other
    refine congrArg List.sum (List.map_congr_left fun part among => ?_)
    exact congrArg (fun entry => (entry.map DataContext.nmemb).getD 0) (partsApart named among)
  have parts : ∀ other part, part ∈ tokens other → (ctx.loadMap part).isSome →
      (Function.update ctx.loadMap name (some (combinedEntry ctx name)) part).isSome := by
    intro other part among known
    rw [partsApart named among]
    exact known
  -- the new block lies in no entry of before
  have unused : ∀ other pOther, ctx.loadMap other = some pOther →
      pOther.data ≠ ctx.memory.fresh := by
    intro other pOther found here
    obtain ⟨old,present,_⟩ := (consistent.recorded other pOther found).2.2
    exact Nat.lt_irrefl _ (here ▸ consistent.fresh.2 _ old present)
  refine ⟨fun other pOther found => ?_,formed,fun other pOther found made => ?_,
    fun other pOther found made third pThird present shared => ?_⟩
  · rcases entry other pOther found with ⟨_,here⟩ | old
    · rw [here]
      exact ⟨least,small,block,there,length.ge⟩
    · exact kept'.recorded other pOther old
  · rcases entry other pOther found with ⟨same,here⟩ | before
    · rw [here,same]
      exact ⟨rfl,rfl,named,rfl,fun part among => parts name part among (all part among),
        (totals name).symm,block,there,length⟩
    · have old := kept'.combined other pOther before made
      exact ⟨old.double,old.owned,old.named,old.parts,
        fun part among => parts other part among (old.known part among),
        old.total.trans (totals other).symm,old.size⟩
  · rcases entry other pOther found with ⟨same,here⟩ | first
    · rcases entry third pThird present with ⟨equal,_⟩ | second
      · exact equal.trans same.symm
      · exact absurd (shared.trans (congrArg _ here)) (unused third pThird second)
    · rcases entry third pThird present with ⟨_,here⟩ | second
      · exact absurd (shared.symm.trans (congrArg _ here)) (unused other pOther first)
      · exact consistent.own other pOther first made third pThird second shared

theorem combinedContextFits {ctx : PIContext} {name : Text} (consistent : Consistent ctx)
    (named : '_' ∈ name)
    (fits : ctx.loadMap name = none → name.length < 256 ∧ 8 * partsNmemb ctx name < 2^31) :
    Safely (combinedContext ctx name) (fun found => Consistent found.2 ∧
      found.2.loadMap name = some found.1 ∧
      (∀ other, other ≠ name → found.2.loadMap other = ctx.loadMap other) ∧
      ∀ p, p ≠ ctx.memory.fresh → found.2.memory.blocks p = ctx.memory.blocks p) := by
  unfold combinedContext
  cases known : ctx.loadMap name with
  | some pDC => exact ⟨consistent,known,fun _ _ => rfl,fun _ _ => rfl⟩
  | none =>
    obtain ⟨short,small⟩ := fits known
    have formed := consistentFormed consistent
    simp only [if_neg (Nat.not_le_of_lt short),safelyBind,safelyPure]
    refine safelyMono (combinedNmembFits consistent (tokens name) 0
      (by rw [zero_add]; exact small) le_rfl) fun total result => ?_
    obtain ⟨sum,all⟩ := result
    replace sum : total = partsNmemb ctx name := by rw [sum,zero_add]; rfl
    subst sum
    have least : 0 ≤ partsNmemb ctx name := by
      refine List.sum_nonneg fun n among => ?_
      obtain ⟨part,_,rfl⟩ := List.mem_map.mp among
      exact nmembOfLeast consistent part
    have bytes : (typeBytes .d : Int) * partsNmemb ctx name < 2^31 := small
    refine safelyMono (newSafely formed least bytes) fun made shape => ?_
    obtain ⟨made,m⟩ := made
    obtain ⟨shape,grown,after,others,place⟩ := shape
    dsimp only at shape grown after others place ⊢
    obtain ⟨here,block,there,length⟩ := place rfl
    rw [here] at there
    rw [shape,here]
    exact ⟨consistentCombine consistent grown after named all least small there length,
      Function.update_self ..,fun other apart => Function.update_of_ne apart ..,others⟩

theorem valuesFrame {pDC : DataContext} {m next : Memory}
    (same : next.blocks pDC.data = m.blocks pDC.data) : pDC.values next = pDC.values m := by
  simp only [DataContext.values,Memory.read,same]

theorem valuesSafely {pDC : DataContext} {m : Memory} (held : Holds m pDC.data (dataSize pDC)) :
    Safely (pDC.values m) (fun values => values.length = pDC.nmemb.toNat) := by
  unfold DataContext.values
  rw [safelyBind]
  refine safelyMono (typeSizeSafely pDC.tID) fun size sized => ?_
  subst sized
  split
  · next none => rw [safelyPure,List.length_nil,Int.toNat_of_nonpos none]
  · rw [safelyBind]
    refine safelyMono (readHeld held) fun bytes _ => ?_
    rw [safelyPure,elements,List.length_map,List.length_range]

theorem writtenTwice {block first second : Bytes} {offset : Nat}
    (fits : offset + first.length ≤ block.length) :
    (block.take offset ++ first ++ block.drop (offset + first.length)).take (offset + first.length) ++
        second ++
      (block.take offset ++ first ++ block.drop (offset + first.length)).drop
        (offset + first.length + second.length) =
    block.take offset ++ (first ++ second) ++ block.drop (offset + (first ++ second).length) := by
  have head : (block.take offset ++ first).length = offset + first.length := by
    rw [List.length_append,List.length_take]
    omega
  rw [List.take_left' head,← List.drop_drop,List.drop_left' head,List.drop_drop,
    List.length_append,← Nat.add_assoc]
  simp only [List.append_assoc]

def asDoubles (values : List (List Scalar)) : Bytes :=
  values.flatten.flatMap (fun v => doubleBytes v.toDouble)

theorem asDoublesCons (vs : List Scalar) (values : List (List Scalar)) :
    asDoubles (vs :: values) = vs.flatMap (fun v => doubleBytes v.toDouble) ++ asDoubles values := by
  rw [asDoubles,List.flatten_cons,List.flatMap_append]
  rfl

theorem doublesLength (vs : List Scalar) :
    (vs.flatMap (fun v => doubleBytes v.toDouble)).length = 8 * vs.length := by
  induction vs with
  | nil => rfl
  | cons v vs ih =>
    rw [List.flatMap_cons,List.length_append,ih,List.length_cons,doubleBytes,List.length_map,
      List.length_range]
    omega

/- The parts' values go into the block from element pTrg on; they are read from blocks
that this does not write, so the values are those of any memory that agrees outside data. -/
theorem partsCopied {ctx : PIContext} {data : Pointer} (parts : List Text) (pTrg : Nat) {m : Memory}
    {block : Bytes} (formed : Formed m) (there : m.blocks data = some block)
    (known : ∀ part ∈ parts, ∃ pLDC, ctx.loadMap part = some pLDC ∧ 0 ≤ pLDC.nmemb ∧
      Holds m pLDC.data (dataSize pLDC) ∧ pLDC.data ≠ data)
    (room : 8 * pTrg + 8 * (parts.map (nmembOf ctx)).sum ≤ block.length) :
    Safely (combineParts ctx.loadMap data parts pTrg m) (fun next => SameSizes m next ∧ Formed next ∧
      (∀ q, q ≠ data → next.blocks q = m.blocks q) ∧
      ∃ contexts values, parts.map ctx.loadMap = contexts.map some ∧
        List.Forall₂ (fun (pLDC : DataContext) vs => ∀ other : Memory,
          (∀ q, q ≠ data → other.blocks q = m.blocks q) → pLDC.values other = .ok vs) contexts values ∧
        ((asDoubles values).length : Int) = 8 * (parts.map (nmembOf ctx)).sum ∧
        next.blocks data = some (block.take (8 * pTrg) ++ asDoubles values ++
          block.drop (8 * pTrg + (asDoubles values).length))) := by
  induction parts generalizing pTrg m block with
  | nil =>
    exact ⟨sameSizesRefl m,formed,fun _ _ => rfl,[],[],rfl,.nil,rfl,by simpa [asDoubles] using there⟩
  | cons part rest ih =>
    obtain ⟨pLDC,found,least,held,apart⟩ := known part List.mem_cons_self
    have later : 0 ≤ (rest.map (nmembOf ctx)).sum := by
      refine List.sum_nonneg fun n among => ?_
      obtain ⟨other,member,rfl⟩ := List.mem_map.mp among
      obtain ⟨pOther,present,positive,_⟩ := known other (List.mem_cons_of_mem _ member)
      exact nmembOfKnown present ▸ positive
    rw [List.map_cons,List.sum_cons,nmembOfKnown found] at room
    simp only [combineParts,found]
    split
    · rw [safelyBind]
      cases read : pLDC.values m with
      | error e =>
        have safely := valuesSafely held
        rw [read] at safely
        exact safely
      | ok vs =>
        have count : vs.length = pLDC.nmemb.toNat := by
          have safely := valuesSafely held
          rw [read] at safely
          exact safely
        have size := doublesLength vs
        have fits : 8 * pTrg + (vs.flatMap (fun v => doubleBytes v.toDouble)).length ≤ block.length := by
          omega
        rw [safelyOk,safelyBind]
        refine safelyMono (writeInside formed there fits) fun mid written => ?_
        obtain ⟨kept,between,_,blocks⟩ := written
        have others : ∀ q, q ≠ data → mid.blocks q = m.blocks q :=
          fun q ne => by rw [blocks,if_neg ne]
        refine safelyMono (ih (pTrg + pLDC.nmemb.toNat) between
          (by rw [blocks,if_pos rfl]) (fun other among => ?_) ?_) fun next copied => ?_
        · obtain ⟨pOther,present,positive,holds,distinct⟩ :=
            known other (List.mem_cons_of_mem _ among)
          exact ⟨pOther,present,positive,holdsKept kept holds,distinct⟩
        · rw [writtenLength fits]
          push_cast
          omega
        obtain ⟨more,after,rest',contexts,values,maps,copies,total,final⟩ := copied
        refine ⟨sameSizesTrans kept more,after,fun q ne => (rest' q ne).trans (others q ne),
          pLDC :: contexts,vs :: values,?_,.cons (fun other agrees => ?_) ?_,?_,?_⟩
        · rw [List.map_cons,List.map_cons,found,maps]
        · rw [valuesFrame (agrees _ apart),read]
        · exact copies.imp fun pOther ws holds other agrees =>
            holds other fun q ne => (agrees q ne).trans (others q ne).symm
        · rw [asDoublesCons,List.length_append,List.map_cons,List.sum_cons,nmembOfKnown found]
          push_cast
          omega
        · have target : 8 * (pTrg + pLDC.nmemb.toNat) =
              8 * pTrg + (vs.flatMap (fun v => doubleBytes v.toDouble)).length := by omega
          rw [final,target,asDoublesCons,writtenTwice fits]
    · exact fun impossible => nomatch impossible

theorem nmembsOf {ctx : PIContext} {parts : List Text} {contexts : List DataContext}
    (known : parts.map ctx.loadMap = contexts.map some) :
    parts.map (nmembOf ctx) = contexts.map DataContext.nmemb := by
  have lookups : parts.map (nmembOf ctx) =
      (parts.map ctx.loadMap).map (fun entry => (entry.map DataContext.nmemb).getD 0) := by
    rw [List.map_map]
    rfl
  rw [lookups,known,List.map_map]
  rfl

theorem combinedKept {ctx next : PIContext} {name other : Text} (combined : Combined ctx other)
    (apart : other ≠ name) (named : '_' ∈ name)
    (entries : ∀ n, n ≠ name → next.loadMap n = ctx.loadMap n)
    (blocks : ∀ n pDC, n ≠ name → ctx.loadMap n = some pDC →
      next.memory.blocks pDC.data = ctx.memory.blocks pDC.data) : Combined next other := by
  obtain ⟨pCDC,parts,values,known,double,maps,total,copies,content⟩ := combined
  have plain : ∀ part ∈ tokens other, part ≠ name :=
    fun part among here => tokensPlain among (here ▸ named)
  refine ⟨pCDC,parts,values,(entries other apart).trans known,double,?_,total,?_,
    (blocks other pCDC apart known).trans content⟩
  · rw [← maps]
    exact List.map_congr_left fun part among => entries part (plain part among)
  · have same : ∀ pLDC ∈ parts, next.memory.blocks pLDC.data = ctx.memory.blocks pLDC.data := by
      intro pLDC member
      have found : some pLDC ∈ (tokens other).map ctx.loadMap :=
        maps ▸ List.mem_map_of_mem member
      obtain ⟨part,among,lookup⟩ := List.mem_map.mp found
      exact blocks part pLDC (plain part among) lookup
    refine List.forall₂_iff_get.mpr ⟨copies.length_eq,fun i left right => ?_⟩
    exact (valuesFrame (same _ (List.get_mem ..))).trans (copies.get left right)

/- One turn of combineLoad's loop, for a name with '_'. -/
def combineName (ctx : PIContext) (name : Text) : Except Stop PIContext := do
  let (pCDC,ctx) ← combinedContext ctx name
  if pCDC.combinedLoad.length ≤ 1 then
    throw (.assertion "Failed to combine multiple load data")
  let m ← combineParts ctx.loadMap pCDC.data pCDC.combinedLoad 0 ctx.memory
  return { ctx with memory := m }

theorem combineLoadCons (ctx : PIContext) (name : Text) (rest : List Text) :
    combineLoad ctx (name :: rest) =
      if '_' ∈ name then combineName ctx name >>= fun next => combineLoad next rest
      else combineLoad ctx rest := by
  rw [combineLoad]
  split
  · simp only [combineName,bind_assoc]
    refine congrArg _ (funext fun found => ?_)
    split <;> simp
  · rfl

theorem combineNameFits {ctx : PIContext} {name : Text} (consistent : Consistent ctx)
    (named : '_' ∈ name)
    (fits : ctx.loadMap name = none → name.length < 256 ∧ 8 * partsNmemb ctx name < 2^31) :
    Safely (combineName ctx name) (fun next => Consistent next ∧ Combined next name ∧
      (∀ other, other ≠ name → next.loadMap other = ctx.loadMap other) ∧
      (∃ pCDC, next.loadMap name = some pCDC) ∧
      ∀ other, Combined ctx other → Combined next other) := by
  unfold combineName
  rw [safelyBind]
  refine safelyMono (combinedContextFits consistent named fits) fun found made => ?_
  obtain ⟨pCDC,ctx₁⟩ := found
  obtain ⟨consistent₁,known,entries,blocks⟩ := made
  dsimp only at consistent₁ known entries blocks ⊢
  split
  · exact fun impossible => nomatch impossible
  · next several =>
    have whole : pCDC.combinedLoad ≠ [] := by
      intro none
      simp [none] at several
    have entry := consistent₁.combined name pCDC known whole
    obtain ⟨block,there,length⟩ := entry.size
    have outside : ∀ other pOther, ctx₁.loadMap other = some pOther → other ≠ name →
        pOther.data ≠ pCDC.data := fun other pOther lookup apart shared =>
      apart (consistent₁.own name pCDC known whole other pOther lookup shared)
    have room : 8 * ((0 : Nat) : Int) + 8 * ((tokens name).map (nmembOf ctx₁)).sum ≤ block.length := by
      rw [length,entry.total,partsNmemb]
      omega
    rw [entry.parts]
    simp only [safelyBind,safelyPure]
    refine safelyMono (partsCopied (tokens name) 0 (consistentFormed consistent₁) there
      (fun part among => ?_) room) fun m copied => ?_
    · obtain ⟨pLDC,lookup⟩ := Option.isSome_iff_exists.mp (entry.known part among)
      obtain ⟨least,_,held⟩ := consistent₁.recorded part pLDC lookup
      exact ⟨pLDC,lookup,least,held,
        outside part pLDC lookup fun here => tokensPlain among (here ▸ named)⟩
    obtain ⟨kept,after,others,contexts,values,maps,copies,total,final⟩ := copied
    have combined : Combined { ctx₁ with memory := m } name := by
      refine ⟨pCDC,contexts,values,known,entry.double,maps,?_,copies.imp fun _ _ all => all m others,?_⟩
      · rw [entry.total,partsNmemb,nmembsOf maps]
      · have all : block.length ≤ (asDoubles values).length := by
          have sum := entry.total
          rw [partsNmemb] at sum
          omega
        rw [final,Nat.mul_zero,List.take_zero,List.nil_append,Nat.zero_add,
          List.drop_eq_nil_of_le all,List.append_nil]
        rfl
    refine ⟨consistentMemory consistent₁ kept after,combined,entries,⟨pCDC,known⟩,
      fun other before => ?_⟩
    by_cases same : other = name
    · exact same ▸ combined
    · refine combinedKept before same named entries fun n pDC apart lookup => ?_
      have present := (entries n apart).trans lookup
      obtain ⟨old,held,_⟩ := (consistent.recorded n pDC lookup).2.2
      have below := consistent.fresh.2 _ old held
      exact (others _ (outside n pDC present apart)).trans (blocks _ (Nat.ne_of_lt below))

theorem combineLoadFits {ctx : PIContext} (consistent : Consistent ctx) (loadNames : List Text)
    (fits : Fits ctx (.piNN loadNames)) :
    Safely (combineLoad ctx loadNames) (fun next => Consistent next ∧
      (∀ name ∈ loadNames, '_' ∈ name → Combined next name) ∧
      ∀ name, Combined ctx name → Combined next name) := by
  induction loadNames generalizing ctx with
  | nil => exact ⟨consistent,by simp,fun _ combined => combined⟩
  | cons name rest ih =>
    rw [combineLoadCons]
    split
    · next named =>
      rw [safelyBind]
      refine safelyMono (combineNameFits consistent named (fits name List.mem_cons_self named))
        fun mid turn => ?_
      obtain ⟨consistent₁,combined,entries,⟨pCDC,known⟩,kept⟩ := turn
      -- the lengths of parts are what they were, so the names still fit
      have fits₁ : Fits mid (.piNN rest) := by
        intro n among named' absent
        have apart : n ≠ name := fun same => by simp [same,known] at absent
        have lengths : partsNmemb mid n = partsNmemb ctx n := by
          refine congrArg List.sum (List.map_congr_left fun part member => ?_)
          have lookup := entries part fun here => tokensPlain member (here ▸ named)
          rw [nmembOf,nmembOf,lookup]
        rw [lengths]
        exact fits n (List.mem_cons_of_mem _ among) named' ((entries n apart).symm.trans absent)
      refine safelyMono (ih consistent₁ fits₁) fun next rested => ?_
      obtain ⟨consistent₂,all,preserved⟩ := rested
      refine ⟨consistent₂,fun n among named' => ?_,fun n before => preserved n (kept n before)⟩
      rcases List.mem_cons.mp among with rfl | member
      · exact preserved n combined
      · exact all n member named'
    · next plain =>
      refine safelyMono (ih consistent fun n among => fits n (List.mem_cons_of_mem _ among))
        fun next rested => ?_
      refine ⟨rested.1,fun n among named => ?_,rested.2.2⟩
      rcases List.mem_cons.mp among with rfl | member
      · exact absurd named plain
      · exact rested.2.1 n member named

theorem stepFits {ctx : PIContext} {c : LoadCall} (consistent : Consistent ctx) (fits : Fits ctx c) :
    Safely (step ctx c) Consistent := by
  cases c with
  | piLoad name tID nmemb data doAlloc => exact loadFits consistent fits
  | piLoadCB name tID nmemb cb => exact loadCBFits consistent fits
  | piNN loadNames =>
    exact safelyMono (combineLoadFits consistent loadNames fits) fun next done => done.1
  | poke data bytes => exact pokeFits consistent fits

theorem runConsistent {ctx last : PIContext} {cs : List LoadCall}
    (empty : ∀ name, ctx.loadMap name = none) (formed : Formed ctx.memory)
    (run : Run (fun ctx c => (step ctx c).toOption) Fits ctx cs last) : Consistent last := by
  refine runKeeps Consistent (fun {ctx c next} fits consistent taken => ?_) run ?_
  · have safely := stepFits consistent fits
    cases result : step ctx c with
    | error e => simp [result,Except.toOption] at taken
    | ok after =>
      rw [result] at taken safely
      cases taken
      exact safely
  · refine ⟨fun name pDC known => ?_,formed,fun name pDC known => ?_,fun name pDC known => ?_⟩ <;>
      exact nomatch (empty name).symm.trans known

/- From a context without loads on, while every call fits. -/
theorem combinedWhileFitting {ctx last : PIContext} {cs : List LoadCall} {c : LoadCall}
    (empty : ∀ name, ctx.loadMap name = none) (formed : Formed ctx.memory)
    (run : Run (fun ctx c => (step ctx c).toOption) Fits ctx cs last) (fits : Fits last c) :
    step last c ≠ .error .undefined ∧ ∀ loadNames next, c = .piNN loadNames →
      step last c = .ok next → ∀ name ∈ loadNames, '_' ∈ name → Combined next name := by
  have consistent := runConsistent empty formed run
  refine ⟨fun wrong => ?_,fun loadNames next combines done => ?_⟩
  · have safely := stepFits consistent fits
    rw [wrong] at safely
    exact safely rfl
  · subst combines
    have safely := combineLoadFits consistent loadNames fits
    rw [show combineLoad last loadNames = .ok next from done] at safely
    exact safely.2.1

def noLoads : PIContext := ProgIntel.childContext [] 1 0 0

/- Callbacks that fill what is recorded, and combinations of what there is. -/
def callbackFits (ctx : PIContext) : LoadCall → Bool
  | .piLoadCB name tID nmemb cb => decide (0 ≤ nmemb ∧ typeBytes tID * nmemb < 2^31 ∧
      cb.length ≤ recordedSize ctx name tID nmemb)
  | .piNN loadNames => loadNames.all fun name => decide ('_' ∈ name → ctx.loadMap name = none →
      name.length < 256 ∧ 8 * partsNmemb ctx name < 2^31)
  | _ => false

theorem callbackFitsSound (ctx : PIContext) (c : LoadCall) (checked : callbackFits ctx c = true) :
    Fits ctx c := by
  cases c with
  | piLoadCB name tID nmemb cb => exact of_decide_eq_true (p := 0 ≤ nmemb ∧ _) checked
  | piNN loadNames =>
    exact fun name among => of_decide_eq_true (List.all_eq_true.mp checked name among)
  | _ => cases checked

def loadedAgain : List LoadCall :=
  [.piLoadCB ['x'] .i 1 [5,0,0,0],.piLoadCB ['y'] .uc 2 [1,2],.piNN [['x','_','y']],
    .piLoadCB ['x','_','y'] .d 1 (List.replicate 24 7),.piLoadCB ['y'] .uc 1 [3]]

theorem combinedLoadedAgain : ∃ last,
    Run (fun ctx c => (step ctx c).toOption) Fits noLoads loadedAgain last ∧
    step last (.piNN [['x','_','y']]) ≠ .error .undefined ∧
    ∀ next, step last (.piNN [['x','_','y']]) = .ok next → Combined next ['x','_','y'] := by
  have steps : ((stepsChecked (fun ctx c => (step ctx c).toOption) callbackFits noLoads
      loadedAgain).map (fun last => callbackFits last (.piNN [['x','_','y']]))) = some true := by
    decide +kernel
  obtain ⟨last,all,fits⟩ := Option.map_eq_some_iff.mp steps
  have run := runChecked callbackFitsSound all
  have holds := combinedWhileFitting (fun _ => rfl)
    ⟨by decide,fun _ _ there => by cases there⟩ run (callbackFitsSound _ _ fits)
  exact ⟨last,run,holds.1,fun next done =>
    holds.2 _ next rfl done _ List.mem_cons_self (by decide)⟩

/- A callback is told the caller's length and writes past the recorded one. -/
theorem callbackWritesPast :
    ((loadedAgain.take 3).foldlM step noLoads).map (PIContext.loadMap · ['x','_','y']) =
      .ok (some ⟨.d,3,3,true,[['x'],['y']]⟩) ∧
    ((loadedAgain.take 3 ++ [LoadCall.piLoadCB ['x','_','y'] .d 4 (List.replicate 32 0)]).foldlM step
      noLoads).map (PIContext.loadMap · ['x','_','y']) = .error .undefined := by
  decide +kernel

end Autonomizer.CombineLoad
