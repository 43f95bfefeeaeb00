import Mathlib
import Autonomizer.Binary64
import Autonomizer.CPIO
import Autonomizer.PIInc

/-! DataContext over a memory of separate blocks, and the members of PIContext that
production reads. A pointer is a block's number and NULL is 0; an access past the
end of a block is undefined. Every name comes from a C string. -/
namespace Autonomizer.Data
open CPIO (Bytes)
open Binary64 Format PIInc

/- How a child can end other than by returning: an assertion, assert(0) after a
message about a path, a NULL pointer handed to the library, undefined behaviour. -/
inductive Stop where
  | assertion (what : String)
  | failed (message : String) (path : List Text)
  | null
  | undefined
  deriving DecidableEq, Repr

abbrev Pointer := Nat

structure Memory where
  blocks : Pointer → Option Bytes
  fresh : Pointer

structure DataContext where
  tID : TypeID
  nmemb : Int
  data : Pointer
  doAlloc : Bool
  -- the parts of a combined load, by name
  combinedLoad : List Text
  deriving DecidableEq, Repr

def getTypeSize : TypeID → Except Stop Nat
  | .c | .uc => .ok 1
  | .s | .us => .ok 2
  | .i | .ui | .f => .ok 4
  | .l | .ul | .d => .ok 8
  | _ => .error (.assertion "Unknown data type")

/- int tSize * int nmemb. -/
def byteCount (tSize : Nat) (nmemb : Int) : Except Stop Int :=
  if -2^31 ≤ tSize * nmemb ∧ tSize * nmemb < 2^31 then .ok (tSize * nmemb) else .error .undefined

/- malloc; a negative size is one it cannot serve. -/
def Memory.malloc (m : Memory) (size : Int) : Pointer × Memory :=
  if size < 0 then (0,m)
  else (m.fresh,⟨Function.update m.blocks m.fresh (some (List.replicate size.toNat 0)),m.fresh + 1⟩)

def Memory.read (m : Memory) (p : Pointer) (size : Int) : Except Stop Bytes :=
  match m.blocks p with
  | some block => if size ≤ block.length then .ok (block.take size.toNat) else .error .undefined
  | none => .error .undefined

def Memory.write (m : Memory) (p : Pointer) (offset : Nat) (bytes : Bytes) : Except Stop Memory :=
  match m.blocks p with
  | some block =>
      if offset + bytes.length ≤ block.length then
        .ok ⟨Function.update m.blocks p
          (some (block.take offset ++ bytes ++ block.drop (offset + bytes.length))),m.fresh⟩
      else .error .undefined
  | none => .error .undefined

theorem readFits {m : Memory} {p : Pointer} {block : Bytes} {size : Int}
    (there : m.blocks p = some block) (fits : size ≤ block.length) :
    m.read p size = .ok (block.take size.toNat) := by
  simp only [Memory.read,there,if_pos fits]

theorem writeFits {m : Memory} {p : Pointer} {block bytes : Bytes} {offset : Nat}
    (there : m.blocks p = some block) (fits : offset + bytes.length ≤ block.length) :
    m.write p offset bytes = .ok ⟨Function.update m.blocks p
      (some (block.take offset ++ bytes ++ block.drop (offset + bytes.length))),m.fresh⟩ := by
  simp only [Memory.write,there,if_pos fits]

theorem writtenLength {block bytes : Bytes} {offset : Nat}
    (fits : offset + bytes.length ≤ block.length) :
    (block.take offset ++ bytes ++ block.drop (offset + bytes.length)).length = block.length := by
  simp only [List.length_append,List.length_take,List.length_drop]
  omega

/- The constructor. Without doAlloc data is left uninitialised; it is 0 here and no
member is used before setData. -/
def DataContext.new (m : Memory) (tID : TypeID) (nmemb : Int) (doAlloc : Bool) :
    Except Stop (DataContext × Memory) := do
  if doAlloc then
    let size ← byteCount (← getTypeSize tID) nmemb
    let (data,m) := m.malloc size
    return (⟨tID,nmemb,data,doAlloc,[]⟩,m)
  else return (⟨tID,nmemb,0,doAlloc,[]⟩,m)

def DataContext.setData (pDC : DataContext) (m : Memory) (data : Pointer) :
    Except Stop (DataContext × Memory) := do
  if data = 0 then throw (.assertion "data cannot be NULL")
  if pDC.doAlloc then
    let size ← byteCount (← getTypeSize pDC.tID) pDC.nmemb
    let bytes ← m.read data size
    let m ← m.write pDC.data 0 bytes
    return (pDC,m)
  else return ({ pDC with data },m)

inductive Scalar where
  | int (n : Int)
  | float (x : Fp)
  deriving DecidableEq

def littleEndian (bytes : Bytes) : Nat := bytes.foldr (fun b n => b.toNat + 256 * n) 0

def signed (bits : Nat) (n : Nat) : Int := if n < 2^(bits - 1) then n else (n : Int) - 2^bits

def scalar (tID : TypeID) (bytes : Bytes) : Scalar :=
  let n := littleEndian bytes
  match tID with
  | .c => .int (signed 8 n)
  | .s => .int (signed 16 n)
  | .i => .int (signed 32 n)
  | .l => .int (signed 64 n)
  | .f => .float (decode 8 23 n)
  | .d => .float (decode 11 52 n)
  | _ => .int n

/- What fprintf prints for an element: %d, %u, %ld and %lu, or %f and %lf. -/
def Scalar.print : Scalar → Text
  | .int n => decimal n
  | .float x => printF x

/- (double) of an element. -/
def Scalar.toDouble : Scalar → Fp
  | .int n => Fp.ofInt n
  | .float x => x

/- Elements 0 to n-1 of an array. -/
def elements (tID : TypeID) (tSize n : Nat) (bytes : Bytes) : List Scalar :=
  (List.range n).map (fun j => scalar tID ((bytes.drop (j * tSize)).take tSize))

/- pBuf[0] to pBuf[nmemb-1] of a context. -/
def DataContext.values (pDC : DataContext) (m : Memory) : Except Stop (List Scalar) := do
  let tSize ← getTypeSize pDC.tID
  if pDC.nmemb ≤ 0 then return []
  let bytes ← m.read pDC.data (tSize * pDC.nmemb)
  return elements pDC.tID tSize pDC.nmemb.toNat bytes

/- pBuf[0]. -/
def DataContext.first (pDC : DataContext) (m : Memory) : Except Stop Scalar := do
  let tSize ← getTypeSize pDC.tID
  let bytes ← m.read pDC.data tSize
  return scalar pDC.tID bytes

/- trainIt and validIt are the positions of itTrainArgs and itValidArgs. -/
structure PIContext where
  status : Status
  trainNum : Nat
  trainIt : Nat
  validNum : Nat
  validIt : Nat
  loadMap : Text → Option DataContext
  storeMap : Text → Option DataContext
  storeModelMap : Text → Option ((Text × NNStg) × List Text)
  memory : Memory
  -- PY_MOD_PATH of the build
  modPath : Text

end Autonomizer.Data
