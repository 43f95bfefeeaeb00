import Mathlib
import Autonomizer.LoadStore

/-! taintgrind/tnt_main.c, the taint of whole ranges: one kind over all of it, with whole
secondary maps exchanged for the distinguished one, and a copy of one range over another. -/
namespace Autonomizer.AddressRange
open LoadStore ShadowMemory Total

abbrev SizeT := BitVec 64

def isStartOfSm (a : Addr) : Prop := startOfThisSm a = a

instance (a : Addr) : Decidable (isStartOfSm a) := inferInstanceAs (Decidable (_ = _))

/- VG_(am_munmap_valgrind). -/
def munmap (sm : SmPtr) : Tool Unit :=
  match sm with
  | .allocated n => modify (fun s => { s with mapped := Function.update s.mapped n false })
  | .distinguished _ => halt

/- loop1a: until a is aligned or nothing is left. -/
def loop1a (sm : SmPtr) (vabits2 : UChar) (a : Addr) : Nat → Tool (Addr × Nat)
  | 0 => pure (a,0)
  | len + 1 =>
    if isAligned 8 a then pure (a,len + 1)
    else do
      let smOff := smOff a
      modify (fun s => s.put sm smOff (insertVabits2IntoVabits8 a vabits2 (s.vabits8 sm smOff)))
      loop1a sm vabits2 (a + 1) len

/- loop8a and loop8b. -/
def loop8 (sm : SmPtr) (vabits16 : BitVec 16) (a : Addr) : Nat → Tool (Addr × Nat)
  | len + 8 => do
    modify (fun s => s.put16 sm (smOff16 a) vabits16)
    loop8 sm vabits16 (a + 8) len
  | len => pure (a,len)

/- loop1b and loop1c. -/
def loop1 (sm : SmPtr) (vabits2 : UChar) (a : Addr) : Nat → Tool Addr
  | 0 => pure a
  | len + 1 => do
    let smOff := smOff a
    modify (fun s => s.put sm smOff (insertVabits2IntoVabits8 a vabits2 (s.vabits8 sm smOff)))
    loop1 sm vabits2 (a + 1) len

/- *sm_ptr is made undistinguished, unless it is the map that is wanted. -/
def undistinguish (smPtr : Slot) (exampleDsm : SmPtr) : Tool Bool := do
  let sm ← deref smPtr
  if sm.isDistinguished then
    if sm = exampleDsm then pure true
    else do
      let newSm ← copyForWriting sm
      modify (fun s => s.set smPtr newSm)
      pure false
  else pure false

def part1 (a aNext : Addr) (lenA : Nat) (vabits2 : UChar) (vabits16 : BitVec 16) (exampleDsm : SmPtr) :
    Tool Addr := do
  let smPtr ← getSecmapPtr a
  let quick ← undistinguish smPtr exampleDsm
  let sm ← deref smPtr
  let (a,lenA) := if quick then (aNext,0) else (a,lenA)
  let (a,lenA) ← loop1a sm vabits2 a lenA
  let (a,lenA) ← loop8 sm vabits16 a lenA
  loop1 sm vabits2 a lenA

def loop64K (exampleDsm : SmPtr) (a : Addr) (lenB : Nat) : Tool (Addr × Nat) :=
  if lenB < smSize then pure (a,lenB)
  else do
    assert (isStartOfSm a)
    let smPtr ← getSecmapPtr a
    let sm ← deref smPtr
    if sm.isDistinguished = false then munmap sm
    modify (fun s => s.set smPtr exampleDsm)
    loop64K exampleDsm (a + BitVec.ofNat 64 smSize) (lenB - smSize)
termination_by lenB
decreasing_by
  have : smSize = 65536 := rfl
  omega

def part3 (a : Addr) (lenB : Nat) (vabits2 : UChar) (vabits16 : BitVec 16) (exampleDsm : SmPtr) : Tool Unit := do
  assert (isStartOfSm a ∧ lenB < smSize)
  let smPtr ← getSecmapPtr a
  if ← undistinguish smPtr exampleDsm then pure ()
  else do
    let sm ← deref smPtr
    let (a,lenB) ← loop8 sm vabits16 a lenB
    let _ ← loop1 sm vabits2 a lenB
    pure ()

def part2 (a : Addr) (lenB : Nat) (vabits2 : UChar) (vabits16 : BitVec 16) (exampleDsm : SmPtr) : Tool Unit := do
  let (a,lenB) ← loop64K exampleDsm a lenB
  if lenB = 0 then pure ()
  else part3 a lenB vabits2 vabits16 exampleDsm

def setAddressRangePerms (a : Addr) (lenT : SizeT) (vabits16 : BitVec 16) (dsmNum : Dsm) : Tool Unit := do
  let vabits2 : UChar := (vabits16 &&& 3).setWidth 8
  assert (vaBits16NoAccess = vabits16 ∨ vaBits16Tainted = vabits16 ∨ vaBits16Untainted = vabits16)
  assert (vaBits2PartUntainted ≠ vabits2)
  if lenT = 0 then pure ()
  else do
    let exampleDsm := SmPtr.distinguished dsmNum
    let aNext := startOfThisSm a + BitVec.ofNat 64 smSize
    let lenToNextSecmap := aNext - a
    if lenT ≤ lenToNextSecmap then do
      -- the whole range is in one secondary map
      let _ ← part1 a aNext lenT.toNat vabits2 vabits16 exampleDsm
      pure ()
    else if isStartOfSm a then part2 a lenT.toNat vabits2 vabits16 exampleDsm
    else do
      let lenA := lenToNextSecmap
      let lenB := lenT - lenA
      let a ← part1 a aNext lenA.toNat vabits2 vabits16 exampleDsm
      if lenB = 0 then pure ()
      else part2 a lenB.toNat vabits2 vabits16 exampleDsm

/- The debug-only case, where the build is without PERF_FAST_SARP: k of lenT bytes are left. -/
def setBytePerms (a : Addr) (lenT : Nat) (vabits2 : UChar) : Nat → Tool Unit
  | 0 => pure ()
  | k + 1 => do
    setVabits2 (a + BitVec.ofNat 64 (lenT - (k + 1))) vabits2
    setBytePerms a lenT vabits2 k

def setAddressRangePermsDebug (a : Addr) (lenT : SizeT) (vabits16 : BitVec 16) : Tool Unit := do
  let vabits2 : UChar := (vabits16 &&& 3).setWidth 8
  assert (vaBits16NoAccess = vabits16 ∨ vaBits16Tainted = vabits16 ∨ vaBits16Untainted = vabits16)
  assert (vaBits2PartUntainted ≠ vabits2)
  if lenT = 0 then pure ()
  else setBytePerms a lenT.toNat vabits2 lenT.toNat

def makeMemNoaccess (a : Addr) (len : SizeT) : Tool Unit := setAddressRangePerms a len vaBits16NoAccess .noAccess
def makeMemTainted (a : Addr) (len : SizeT) : Tool Unit := setAddressRangePerms a len vaBits16Tainted .tainted
def makeMemUntainted (a : Addr) (len : SizeT) : Tool Unit := setAddressRangePerms a len vaBits16Untainted .untainted

def copySecVbits8 (src dst : Addr) : Tool Unit := do
  let vabits2 ← getVabits2 src
  if vaBits2PartUntainted = vabits2 then do
    let vbits8 ← getSecVbits8 src
    setSecVbits8 dst vbits8

/- The body of the three loops that go byte by byte. -/
def copyByte (src dst : Addr) : Tool Unit := do
  let vabits2 ← getVabits2 src
  setVabits2 dst vabits2
  if vaBits2PartUntainted = vabits2 then do
    let vbits8 ← getSecVbits8 src
    setSecVbits8 dst vbits8

/- The body of the vector loop. -/
def copyWord (src dst : Addr) : Tool Unit := do
  let vabits8 ← getVabits8ForAlignedWord32 src
  setVabits8ForAlignedWord32 dst vabits8
  if vaBits8Untainted = vabits8 ∨ vaBits8Tainted = vabits8 ∨ vaBits8NoAccess = vabits8 then pure ()
  else do
    copySecVbits8 (src + 0) (dst + 0)
    copySecVbits8 (src + 1) (dst + 1)
    copySecVbits8 (src + 2) (dst + 2)
    copySecVbits8 (src + 3) (dst + 3)

def copyWords (src dst i : Addr) : Nat → Tool (Addr × Nat)
  | len + 4 => do
    copyWord (src + i) (dst + i)
    copyWords src dst (i + 4) len
  | len => pure (i,len)

/- i goes up: the fixup loop, and the slow way where dst is below src. -/
def copyUp (src dst i : Addr) : Nat → Tool Unit
  | 0 => pure ()
  | len + 1 => do
    copyByte (src + i) (dst + i)
    copyUp src dst (i + 1) len

/- j goes down: the slow way where src is below dst. -/
def copyDown (src dst : Addr) : Nat → Tool Unit
  | 0 => pure ()
  | j + 1 => do
    copyByte (src + BitVec.ofNat 64 j) (dst + BitVec.ofNat 64 j)
    copyDown src dst j

def copyAddressRangeState (src dst : Addr) (len : SizeT) : Tool Unit := do
  if len = 0 ∨ src = dst then pure ()
  else
    let aligned := isAligned 4 src ∧ isAligned 4 dst
    let nooverlap := src + len ≤ dst ∨ dst + len ≤ src
    if nooverlap ∧ aligned then do
      let (i,len) ← copyWords src dst 0 len.toNat
      copyUp src dst i len
    else do
      if src < dst then copyDown src dst len.toNat
      if dst < src then copyUp src dst 0 len.toNat

end Autonomizer.AddressRange
