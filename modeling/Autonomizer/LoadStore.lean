import Mathlib
import Autonomizer.ShadowMemory

/-! taintgrind/tnt_main.c, the handlers that generated code calls at its loads and stores:
each has a fast case for words that are aligned, low in memory and tainted altogether or not
at all, and a slow one that goes byte by byte. -/
namespace Autonomizer.LoadStore
open ShadowMemory Total

abbrev ULong := BitVec 64

def vBits16Untainted : ULong := 0
def vBits16Tainted : ULong := 0xFFFF
def vBits32Untainted : ULong := 0
def vBits32Tainted : ULong := 0xFFFFFFFF
def vBits64Untainted : ULong := 0
def vBits64Tainted : ULong := 0xFFFFFFFFFFFFFFFF

def vaBits4Tainted : UChar := 0x5
def vaBits4Untainted : UChar := 0xa
def vaBits8NoAccess : UChar := 0x00
def vaBits8Tainted : UChar := 0x55
def vaBits8Untainted : UChar := 0xaa
def vaBits16NoAccess : BitVec 16 := 0x0000
def vaBits16Tainted : BitVec 16 := 0x5555
def vaBits16Untainted : BitVec 16 := 0xaaaa

def insertVabits4IntoVabits8 (a : Addr) (vabits4 vabits8 : UChar) : UChar :=
  let shift := ((a &&& 2) <<< 1).toNat
  (vabits8 &&& ~~~((0xf : UChar) <<< shift)) ||| (vabits4 <<< shift)

def extractVabits4FromVabits8 (a : Addr) (vabits8 : UChar) : UChar :=
  let shift := ((a &&& 2) <<< 1).toNat
  0xf &&& (vabits8 >>> shift)

def byteOffsetW (wordszB : Nat) (bigendian : Bool) (byteno : Nat) : Nat :=
  if bigendian then wordszB - 1 - byteno else byteno

/- i counts down: the most significant byte comes first. -/
def loadBytes (a : Addr) (szB : Nat) (bigendian : Bool) : Nat → ULong → Tool ULong
  | 0,vbits64 => pure vbits64
  | i + 1,vbits64 => do
    let (_,vbits8) ← getVbits8 (a + BitVec.ofNat 64 (byteOffsetW szB bigendian i))
    loadBytes a szB bigendian i ((vbits64 <<< 8) ||| vbits8.setWidth 64)

/- The semi-fast cases of tnt_LOADVn_slow. -/
def loadVnSemiFast (a : Addr) (nBits : Nat) : Tool (Option ULong) := do
  if nBits = 64 ∧ isAligned 8 a then do
    let sm ← getSecmapForReading a
    let s ← get
    let vabits16 := s.vabits16 sm (smOff16 a)
    if vabits16 = vaBits16Untainted then pure (some vBits64Untainted)
    else if vabits16 = vaBits16Tainted then pure (some vBits64Tainted)
    else pure none
  else if nBits = 32 ∧ isAligned 4 a then do
    let sm ← getSecmapForReading a
    let s ← get
    let vabits8 := s.vabits8 sm (smOff a)
    if vabits8 = vaBits8Untainted then pure (some (0xFFFFFFFF00000000 ||| vBits32Untainted))
    else if vabits8 = vaBits8Tainted then pure (some (0xFFFFFFFF00000000 ||| vBits32Tainted))
    else pure none
  else pure none

def loadVnSlow (a : Addr) (nBits : Nat) (bigendian : Bool) : Tool ULong := do
  match ← loadVnSemiFast a nBits with
  | some vbits64 => pure vbits64
  | none => do
    assert (nBits = 64 ∨ nBits = 32 ∨ nBits = 16 ∨ nBits = 8)
    loadBytes a (nBits / 8) bigendian (nBits / 8) vBits64Tainted

/- k is what is left of szB bytes: the least significant one comes first. -/
def storeBytes (a : Addr) (szB : Nat) (bigendian : Bool) : Nat → ULong → Tool Unit
  | 0,_ => pure ()
  | k + 1,vbytes => do
    let i := szB - (k + 1)
    let _ ← setVbits8 (a + BitVec.ofNat 64 (byteOffsetW szB bigendian i)) (vbytes.setWidth 8)
    storeBytes a szB bigendian k (vbytes >>> 8)

/- The semi-fast cases of tnt_STOREVn_slow, and whether they have done it. -/
def storeVnSemiFast (a : Addr) (nBits : Nat) (vbytes : ULong) : Tool Bool := do
  if nBits = 64 ∧ isAligned 8 a then do
    let sm ← getSecmapForReading a
    let s ← get
    let smOff16 := smOff16 a
    let vabits16 := s.vabits16 sm smOff16
    if sm.isDistinguished = false ∧ (vaBits16Untainted = vabits16 ∨ vaBits16Tainted = vabits16) then
      if vBits64Untainted = vbytes then do
        modify (fun s => s.put16 sm smOff16 vaBits16Untainted)
        pure true
      else if vBits64Tainted = vbytes then do
        modify (fun s => s.put16 sm smOff16 vaBits16Tainted)
        pure true
      else pure false
    else pure false
  else if nBits = 32 ∧ isAligned 4 a then do
    let sm ← getSecmapForReading a
    let s ← get
    let smOff := smOff a
    let vabits8 := s.vabits8 sm smOff
    if sm.isDistinguished = false ∧ (vaBits8Untainted = vabits8 ∨ vaBits8Tainted = vabits8) then
      if vBits32Untainted = vbytes &&& 0xFFFFFFFF then do
        modify (fun s => s.put sm smOff vaBits8Untainted)
        pure true
      else if vBits32Tainted = vbytes &&& 0xFFFFFFFF then do
        modify (fun s => s.put sm smOff vaBits8Tainted)
        pure true
      else pure false
    else pure false
  else pure false

def storeVnSlow (a : Addr) (nBits : Nat) (vbytes : ULong) (bigendian : Bool) : Tool Unit := do
  if ← storeVnSemiFast a nBits vbytes then pure ()
  else do
    assert (nBits = 64 ∨ nBits = 32 ∨ nBits = 16 ∨ nBits = 8)
    storeBytes a (nBits / 8) bigendian (nBits / 8) vbytes

def mask (szInBytes : Nat) : Addr :=
  ~~~((0x10000 - BitVec.ofNat 64 szInBytes) ||| (BitVec.ofNat 64 (nPrimaryMap - 1) <<< 16))

def unalignedOrHigh (a : Addr) (szInBits : Nat) : Prop := a &&& mask (szInBits >>> 3) ≠ 0

instance (a : Addr) (szInBits : Nat) : Decidable (unalignedOrHigh a szInBits) :=
  inferInstanceAs (Decidable (_ ≠ _))

/- j counts down over szL words, and the bytes of each are read as in loadBytes. -/
def loadLongs (a : Addr) (szL : Nat) (bigendian : Bool) : Nat → (Nat → ULong) → Tool (Nat → ULong)
  | 0,res => pure res
  | j + 1,res => do
    let longIndex := byteOffsetW szL bigendian j
    let vbits64 ← loadBytes (a + 8 * BitVec.ofNat 64 longIndex) 8 bigendian 8 vBits64Tainted
    loadLongs a szL bigendian j (Function.update res longIndex vbits64)

def loadV128Or256Slow (res : Nat → ULong) (a : Addr) (nBits : Nat) (bigendian : Bool) :
    Tool (Nat → ULong) := do
  let szB := nBits / 8
  let szL := szB / 8
  assert (szB &&& (szB - 1) = 0 ∧ szL > 0)
  loadLongs a szL bigendian szL (fun j => if j < szL then vBits64Tainted else res j)

/- k is what is left of nULongs words; none where one of them is tainted in part. -/
def loadULongs (a : Addr) (nULongs : Nat) : Nat → (Nat → ULong) → Tool (Option (Nat → ULong))
  | 0,res => pure (some res)
  | k + 1,res => do
    let j := nULongs - (k + 1)
    let sm ← getSecmapForReadingLow (a + 8 * BitVec.ofNat 64 j)
    let s ← get
    let vabits16 := s.vabits16 sm (smOff16 (a + 8 * BitVec.ofNat 64 j))
    if vabits16 = vaBits16Untainted then loadULongs a nULongs k (Function.update res j vBits64Untainted)
    else if vabits16 = vaBits16Tainted then loadULongs a nULongs k (Function.update res j vBits64Tainted)
    else pure none

def loadV128Or256 (res : Nat → ULong) (a : Addr) (nBits : Nat) (isBigEndian : Bool) :
    Tool (Nat → ULong) := do
  if unalignedOrHigh a nBits then loadV128Or256Slow res a nBits isBigEndian
  else match ← loadULongs a (nBits / 8 / 8) (nBits / 8 / 8) res with
    | some res => pure res
    | none => loadV128Or256Slow res a nBits isBigEndian

def loadV64 (a : Addr) (isBigEndian : Bool) : Tool ULong := do
  if unalignedOrHigh a 64 then loadVnSlow a 64 isBigEndian
  else do
    let sm ← getSecmapForReadingLow a
    let s ← get
    let vabits16 := s.vabits16 sm (smOff16 a)
    if vabits16 = vaBits16Untainted then pure vBits64Untainted
    else if vabits16 = vaBits16Tainted then pure vBits64Tainted
    else loadVnSlow a 64 isBigEndian

def storeV64 (a : Addr) (vbits64 : ULong) (isBigEndian : Bool) : Tool Unit := do
  if unalignedOrHigh a 64 then storeVnSlow a 64 vbits64 isBigEndian
  else do
    let sm ← getSecmapForReadingLow a
    let s ← get
    let smOff16 := smOff16 a
    let vabits16 := s.vabits16 sm smOff16
    if sm.isDistinguished = false ∧ (vaBits16Untainted = vabits16 ∨ vaBits16Tainted = vabits16) then
      if vBits64Untainted = vbits64 then modify (fun s => s.put16 sm smOff16 vaBits16Untainted)
      else if vBits64Tainted = vbits64 then modify (fun s => s.put16 sm smOff16 vaBits16Tainted)
      else storeVnSlow a 64 vbits64 isBigEndian
    else storeVnSlow a 64 vbits64 isBigEndian

def loadV32 (a : Addr) (isBigEndian : Bool) : Tool ULong := do
  if unalignedOrHigh a 32 then loadVnSlow a 32 isBigEndian
  else do
    let sm ← getSecmapForReadingLow a
    let s ← get
    let vabits8 := s.vabits8 sm (smOff a)
    if vabits8 = vaBits8Untainted then pure (0xFFFFFFFF00000000 ||| vBits32Untainted)
    else if vabits8 = vaBits8Tainted then pure (0xFFFFFFFF00000000 ||| vBits32Tainted)
    else loadVnSlow a 32 isBigEndian

def storeV32 (a : Addr) (vbits32 : ULong) (isBigEndian : Bool) : Tool Unit := do
  if unalignedOrHigh a 32 then storeVnSlow a 32 vbits32 isBigEndian
  else do
    let sm ← getSecmapForReadingLow a
    let s ← get
    let smOff := smOff a
    let vabits8 := s.vabits8 sm smOff
    if vBits32Untainted = vbits32 then
      -- what is there already is not written again
      if vabits8 = vaBits8Untainted then pure ()
      else if sm.isDistinguished = false ∧ vaBits8Tainted = vabits8 then
        modify (fun s => s.put sm smOff vaBits8Untainted)
      else storeVnSlow a 32 vbits32 isBigEndian
    else if vBits32Tainted = vbits32 then
      if vabits8 = vaBits8Tainted then pure ()
      else if sm.isDistinguished = false ∧ vaBits8Untainted = vabits8 then
        modify (fun s => s.put sm smOff vaBits8Tainted)
      else storeVnSlow a 32 vbits32 isBigEndian
    else storeVnSlow a 32 vbits32 isBigEndian

def loadV16 (a : Addr) (isBigEndian : Bool) : Tool ULong := do
  if unalignedOrHigh a 16 then loadVnSlow a 16 isBigEndian
  else do
    let sm ← getSecmapForReadingLow a
    let s ← get
    let vabits8 := s.vabits8 sm (smOff a)
    if vabits8 = vaBits8Untainted then pure vBits16Untainted
    else if vabits8 = vaBits8Tainted then pure vBits16Tainted
    else do
      assert (isAligned 2 a)
      let vabits4 := extractVabits4FromVabits8 a vabits8
      if vabits4 = vaBits4Untainted then pure vBits16Untainted
      else if vabits4 = vaBits4Tainted then pure vBits16Tainted
      else loadVnSlow a 16 isBigEndian

def storeV16 (a : Addr) (vbits16 : ULong) (isBigEndian : Bool) : Tool Unit := do
  if unalignedOrHigh a 16 then storeVnSlow a 16 vbits16 isBigEndian
  else do
    let sm ← getSecmapForReadingLow a
    let s ← get
    let smOff := smOff a
    let vabits8 := s.vabits8 sm smOff
    let insert (vabits4 : UChar) : Tool Unit := do
      assert (isAligned 2 a)
      modify (fun s => s.put sm smOff (insertVabits4IntoVabits8 a vabits4 (s.vabits8 sm smOff)))
    if sm.isDistinguished = false ∧ (vaBits8Untainted = vabits8 ∨ vaBits8Tainted = vabits8) then
      if vBits16Untainted = vbits16 then insert vaBits4Untainted
      else if vBits16Tainted = vbits16 then insert vaBits4Tainted
      else storeVnSlow a 16 vbits16 isBigEndian
    else storeVnSlow a 16 vbits16 isBigEndian

def loadV8 (a : Addr) : Tool ULong := do
  if unalignedOrHigh a 8 then loadVnSlow a 8 false
  else do
    let sm ← getSecmapForReadingLow a
    let s ← get
    let vabits8 := s.vabits8 sm (smOff a)
    if vabits8 = vaBits8Untainted then pure (vBits8Untainted.setWidth 64)
    else if vabits8 = vaBits8Tainted then pure (vBits8Tainted.setWidth 64)
    else
      let vabits2 := extractVabits2FromVabits8 a vabits8
      if vabits2 = vaBits2Untainted then pure (vBits8Untainted.setWidth 64)
      else if vabits2 = vaBits2Tainted then pure (vBits8Tainted.setWidth 64)
      else loadVnSlow a 8 false

def storeV8 (a : Addr) (vbits8 : ULong) : Tool Unit := do
  if unalignedOrHigh a 8 then storeVnSlow a 8 vbits8 false
  else do
    let sm ← getSecmapForReadingLow a
    let s ← get
    let smOff := smOff a
    let vabits8 := s.vabits8 sm smOff
    let insert (vabits2 : UChar) : Tool Unit :=
      modify (fun s => s.put sm smOff (insertVabits2IntoVabits8 a vabits2 (s.vabits8 sm smOff)))
    if sm.isDistinguished = false ∧ ((vaBits8Untainted = vabits8 ∨ vaBits8Tainted = vabits8) ∨
        vaBits2NoAccess ≠ extractVabits2FromVabits8 a vabits8) then
      if vBits8Untainted.setWidth 64 = vbits8 then insert vaBits2Untainted
      else if vBits8Tainted.setWidth 64 = vbits8 then insert vaBits2Tainted
      else storeVnSlow a 8 vbits8 false
    else storeVnSlow a 8 vbits8 false

end Autonomizer.LoadStore
