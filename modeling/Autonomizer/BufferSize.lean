import Mathlib
import Autonomizer.StoreBack

/-! The byte counts of a buffer of a type and a length: int in the constructor of
DataContext and in setData, unsigned int in runtimeInit and in storeData. -/
namespace Autonomizer.BufferSize
open CPIO (Bytes)
open Data PIInc StoreBack

/- Each of the four places counts size bytes, and what it allocates has room for them. -/
structure Counts (tID : TypeID) (nmemb size : Int) : Prop where
  constructor_ : ∀ m, ∃ pDC next block, DataContext.new m tID nmemb true = .ok (pDC,next) ∧
    next.blocks pDC.data = some block ∧ (block.length : Int) = size
  setData : ∀ (pDC : DataContext) m data source target, pDC.tID = tID → pDC.nmemb = nmemb →
    pDC.doAlloc = true → data ≠ 0 → m.blocks data = some source → m.blocks pDC.data = some target →
    size ≤ source.length → size ≤ target.length → ∃ next, pDC.setData m data = .ok (pDC,next) ∧
      next.blocks pDC.data = some (source.take size.toNat ++ target.drop size.toNat)
  runtimeInit : ∀ (pDC : DataContext) m, pDC.tID = tID → pDC.nmemb = nmemb →
    ∃ made next block, allocate pDC m = .ok (made,next) ∧
      next.blocks made.data = some block ∧ (block.length : Int) = size
  storeData : ∀ pDC : DataContext, pDC.tID = tID → pDC.nmemb = nmemb → copySize pDC = .ok size

theorem byteCountIff {tSize : Nat} {nmemb size : Int} (some_ : 0 ≤ nmemb) :
    byteCount tSize nmemb = .ok size ↔ size = tSize * nmemb ∧ tSize * nmemb < 2^31 := by
  have least : -2^31 ≤ (tSize : Int) * nmemb := by
    have := mul_nonneg (Int.natCast_nonneg tSize) some_
    omega
  unfold byteCount
  split
  · next range => exact ⟨fun same => ⟨(Except.ok.inj same).symm,range.2⟩,fun same => by rw [same.1]⟩
  · next beyond =>
    constructor
    · intro same
      cases same
    · intro same
      exact absurd ⟨least,same.2⟩ beyond

theorem unsignedSizeIff {tSize : Nat} {nmemb : Int} (some_ : 0 ≤ nmemb) :
    unsignedSize tSize nmemb = tSize * nmemb ↔ (tSize : Int) * nmemb < 2^32 := by
  have least := mul_nonneg (Int.natCast_nonneg tSize) some_
  unfold unsignedSize
  constructor
  · intro same
    rw [← same]
    exact Int.emod_lt_of_pos _ (by norm_num)
  · exact Int.emod_eq_of_lt least

section
variable {tID : TypeID} {tSize : Nat} {nmemb : Int}

theorem newCounts (typed : getTypeSize tID = .ok tSize) {size : Int} (least : 0 ≤ size)
    (count : byteCount tSize nmemb = .ok size) (m : Memory) :
    DataContext.new m tID nmemb true = .ok (⟨tID,nmemb,m.fresh,true,[]⟩,
      ⟨Function.update m.blocks m.fresh (some (List.replicate size.toNat 0)),m.fresh + 1⟩) := by
  have given : m.malloc size = (m.fresh,
      ⟨Function.update m.blocks m.fresh (some (List.replicate size.toNat 0)),m.fresh + 1⟩) :=
    if_neg (not_lt.mpr least)
  simp only [DataContext.new,typed,count,given,if_true,bind,Except.bind]
  rfl

theorem setDataCounts {pDC : DataContext} {m : Memory} {data : Pointer} {source target : Bytes}
    {size : Int} (typed : getTypeSize pDC.tID = .ok tSize) (least : 0 ≤ size)
    (count : byteCount tSize pDC.nmemb = .ok size) (alloc : pDC.doAlloc = true) (some_ : data ≠ 0)
    (from_ : m.blocks data = some source) (to_ : m.blocks pDC.data = some target)
    (enough : size ≤ source.length) (room : size ≤ target.length) :
    pDC.setData m data = .ok (pDC,⟨Function.update m.blocks pDC.data
      (some (source.take size.toNat ++ target.drop size.toNat)),m.fresh⟩) := by
  have taken : (source.take size.toNat).length = size.toNat := by
    rw [List.length_take]
    omega
  have fits : 0 + (source.take size.toNat).length ≤ target.length := by omega
  simp only [DataContext.setData,typed,count,alloc,if_neg some_,readFits from_ enough,
    writeFits to_ fits,taken,if_true,bind,Except.bind]
  rw [List.take_zero,List.nil_append,Nat.zero_add]
  rfl

theorem allocateCounts {pDC : DataContext} (typed : getTypeSize pDC.tID = .ok tSize)
    (some_ : 1 ≤ pDC.nmemb) (m : Memory) : allocate pDC m = .ok ({ pDC with data := m.fresh },
      ⟨Function.update m.blocks m.fresh
        (some (List.replicate (unsignedSize tSize pDC.nmemb).toNat 0)),m.fresh + 1⟩) := by
  have given : m.malloc (unsignedSize tSize pDC.nmemb) = (m.fresh,⟨Function.update m.blocks m.fresh
      (some (List.replicate (unsignedSize tSize pDC.nmemb).toNat 0)),m.fresh + 1⟩) :=
    if_neg (not_lt.mpr (sizeRange tSize pDC.nmemb))
  have positive : ¬ pDC.nmemb ≤ 0 := by omega
  simp only [allocate,typed,if_neg positive,given,bind,Except.bind]
  rfl

/- For every type that has a size and every positive int: all four places count the size
times the length exactly when this is an int. -/
theorem sizesExactIff (typed : getTypeSize tID = .ok tSize) (some_ : 1 ≤ nmemb) :
    Counts tID nmemb (tSize * nmemb) ↔ (tSize : Int) * nmemb < 2^31 := by
  have positive : 0 ≤ nmemb := by omega
  have least : 0 ≤ (tSize : Int) * nmemb := mul_nonneg (Int.natCast_nonneg tSize) positive
  constructor
  · intro counts
    by_contra beyond
    obtain ⟨pDC,next,block,made,_⟩ := counts.constructor_ ⟨fun _ => none,1⟩
    have undefined_ : byteCount tSize nmemb = .error .undefined := if_neg (fun range => beyond range.2)
    simp only [DataContext.new,typed,undefined_,if_true,bind,Except.bind] at made
    cases made
  · intro small
    have count := (byteCountIff positive).mpr ⟨rfl,small⟩
    have unsigned := (unsignedSizeIff positive).mpr (small.trans (by norm_num))
    have length : ((List.replicate (tSize * nmemb).toNat (0 : UInt8)).length : Int) = tSize * nmemb := by
      rw [List.length_replicate]
      exact Int.toNat_of_nonneg least
    refine ⟨fun m => ?_,?_,?_,?_⟩
    · exact ⟨_,_,_,newCounts typed least count m,Function.update_self ..,length⟩
    · rintro pDC m data source target rfl rfl alloc null from_ to_ enough room
      exact ⟨_,setDataCounts typed least count alloc null from_ to_ enough room,
        Function.update_self ..⟩
    · rintro pDC m rfl rfl
      refine ⟨_,_,_,allocateCounts typed some_ m,Function.update_self ..,?_⟩
      rw [unsigned]
      exact length
    · rintro pDC rfl rfl
      simp only [copySize,typed,unsigned,bind,Except.bind]
      rfl

end

/- Four doubles take 32 bytes. -/
theorem fourDoubles : Counts .d 4 (8 * 4) :=
  (@sizesExactIff .d 8 4 rfl (by decide)).mpr (by decide)

/- 2^29 doubles take none. -/
theorem doublesWrap : ¬ ∀ (tID : TypeID) (tSize : Nat) (nmemb : Int), getTypeSize tID = .ok tSize →
    1 ≤ nmemb → nmemb < 2^31 → Counts tID nmemb (tSize * nmemb) := by
  intro all
  have counts := all .d 8 (2^29) rfl (by norm_num) (by norm_num)
  have none_ : copySize ⟨.d,2^29,0,false,[]⟩ = .ok 0 := by decide
  have whole := counts.storeData ⟨.d,2^29,0,false,[]⟩ rfl rfl
  rw [none_] at whole
  cases whole

end Autonomizer.BufferSize
