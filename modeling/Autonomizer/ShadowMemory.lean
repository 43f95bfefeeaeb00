import Mathlib
import Autonomizer.Total

/-! taintgrind/tnt_main.c, the shadow memory: two bits for each byte of the address space, in
secondary maps of 64K that are shared until they are written, and the taint of a byte in
full only where some of its bits are tainted and some are not. -/
namespace Autonomizer.ShadowMemory
open Total

abbrev Addr := BitVec 64
abbrev UChar := BitVec 8

def nPrimaryMap : Nat := 2 ^ 19
def maxPrimaryAddress : Addr := 0x7FFFFFFFF
def smSize : Nat := 65536

def vaBits2NoAccess : UChar := 0
def vaBits2Tainted : UChar := 1
def vaBits2Untainted : UChar := 2
def vaBits2PartUntainted : UChar := 3

def vBits8Untainted : UChar := 0
def vBits8Tainted : UChar := 0xFF

def smOff (a : Addr) : Nat := ((a &&& 0xFFFF) >>> 2).toNat
def smOff16 (a : Addr) : Nat := ((a &&& 0xFFFF) >>> 3).toNat
def startOfThisSm (a : Addr) : Addr := a &&& ~~~0xFFFF

/- VG_IS_2_ALIGNED, VG_IS_4_ALIGNED, VG_IS_8_ALIGNED. -/
def isAligned (n : Nat) (a : Addr) : Prop := a.toNat % n = 0

instance (n : Nat) (a : Addr) : Decidable (isAligned n a) := inferInstanceAs (Decidable (_ = _))

/- dsm_num. -/
inductive Dsm where
  | noAccess
  | tainted
  | untainted
  deriving DecidableEq

namespace Dsm

def vaBits2 : Dsm → UChar
  | noAccess => vaBits2NoAccess
  | tainted => vaBits2Tainted
  | untainted => vaBits2Untainted

/- What init_shadow_memory writes to each byte of the map. -/
def vaBits8 : Dsm → UChar
  | noAccess => 0x00
  | tainted => 0x55
  | untainted => 0xaa

end Dsm

/- SecMap *: one of sm_distinguished, or what am_shadow_alloc has returned. -/
inductive SmPtr where
  | distinguished (d : Dsm)
  | allocated (n : Nat)
  deriving DecidableEq

namespace SmPtr

def isDistinguished : SmPtr → Bool
  | distinguished _ => true
  | allocated _ => false

end SmPtr

/- SecMap **: an entry of primary_map, or the sm of a node of auxmap_L2. -/
inductive Slot where
  | primary (pmOff : Nat)
  | aux (base : Addr)
  deriving DecidableEq

/- An entry of auxmap_L1. A node of auxmap_L2 is never freed, so that its key stands for the
pointer to it. -/
structure AuxCell where
  base : Addr
  ent : Option Addr
  deriving DecidableEq

structure SecVBitNode where
  a : Addr
  vbits8 : Nat → UChar

structure ShadowMem where
  smDistinguished : Dsm → Nat → UChar
  secMaps : Nat → Nat → UChar
  issued : Nat
  mapped : Nat → Bool
  primaryMap : Nat → SmPtr
  auxmapL1 : Nat → AuxCell
  auxmapL2 : Addr → Option SmPtr
  secVBitTable : List SecVBitNode
  secVBitLimit : Int
  /- The new limit from the limit and the survivors, which is floating-point arithmetic. -/
  growth : Int → Nat → Int

abbrev Tool := StateT ShadowMem Option

namespace ShadowMem

def vabits8 (s : ShadowMem) : SmPtr → Nat → UChar
  | .distinguished d => s.smDistinguished d
  | .allocated n => s.secMaps n

/- sm->vabits8[off] = v, wherever sm points. -/
def put (s : ShadowMem) (sm : SmPtr) (off : Nat) (v : UChar) : ShadowMem :=
  match sm with
  | .distinguished d =>
      let map := Function.update (s.smDistinguished d) off v
      { s with smDistinguished := Function.update s.smDistinguished d map }
  | .allocated n =>
      let map := Function.update (s.secMaps n) off v
      { s with secMaps := Function.update s.secMaps n map }

/- ((UShort * )(sm->vabits8))[off16], on a little-endian host. -/
def vabits16 (s : ShadowMem) (sm : SmPtr) (off16 : Nat) : BitVec 16 :=
  (s.vabits8 sm (2 * off16 + 1) ++ s.vabits8 sm (2 * off16) : BitVec (8 + 8))

def put16 (s : ShadowMem) (sm : SmPtr) (off16 : Nat) (v : BitVec 16) : ShadowMem :=
  (s.put sm (2 * off16) (v.setWidth 8)).put sm (2 * off16 + 1) ((v >>> 8).setWidth 8)

def at_ (s : ShadowMem) : Slot → Option SmPtr
  | .primary pmOff => some (s.primaryMap pmOff)
  | .aux base => s.auxmapL2 base

def set (s : ShadowMem) (p : Slot) (sm : SmPtr) : ShadowMem :=
  match p with
  | .primary pmOff => { s with primaryMap := Function.update s.primaryMap pmOff sm }
  | .aux base => { s with auxmapL2 := Function.update s.auxmapL2 base (some sm) }

end ShadowMem

def initShadowMemory (growth : Int → Nat → Int) : ShadowMem where
  smDistinguished d := fun _ => d.vaBits8
  secMaps _ := fun _ => 0
  issued := 0
  mapped _ := false
  primaryMap _ := .distinguished .untainted
  auxmapL1 _ := ⟨0,none⟩
  auxmapL2 _ := none
  secVBitTable := []
  secVBitLimit := 1000
  growth := growth

def nAuxmapL1 : Nat := 24
def auxmapL1InsertIx : Nat := 12

def insertIntoAuxmapL1At (rank : Nat) (ent : Addr) : Tool Unit :=
  modify (fun s => { s with auxmapL1 := fun i =>
    if i < rank then s.auxmapL1 i else if i = rank then ⟨ent,some ent⟩ else s.auxmapL1 (i - 1) })

/- Entry i of auxmap_L1 and the one before it change places. -/
def swapUp (i : Nat) (l1 : Nat → AuxCell) : Nat → AuxCell :=
  Function.update (Function.update l1 (i - 1) (l1 i)) i (l1 (i - 1))

def maybeFindInAuxmap (a : Addr) : Tool (Option Addr) := do
  assert (maxPrimaryAddress < a)
  let a := a &&& ~~~0xFFFF
  let s ← get
  if (s.auxmapL1 0).base = a then pure (s.auxmapL1 0).ent
  else if (s.auxmapL1 1).base = a then do
    modify (fun s => { s with auxmapL1 := swapUp 1 s.auxmapL1 })
    let s ← get
    pure (s.auxmapL1 0).ent
  else match (List.range nAuxmapL1).find? (fun i => (s.auxmapL1 i).base = a) with
    | some 0 => pure (s.auxmapL1 0).ent
    | some (i + 1) => do
      modify (fun s => { s with auxmapL1 := swapUp (i + 1) s.auxmapL1 })
      let s ← get
      pure (s.auxmapL1 i).ent
    | none => match s.auxmapL2 a with
      | some _ => do
        insertIntoAuxmapL1At auxmapL1InsertIx a
        pure (some a)
      | none => pure none

def findOrAllocInAuxmap (a : Addr) : Tool Addr := do
  match ← maybeFindInAuxmap a with
  | some res => pure res
  | none => do
    let a := a &&& ~~~0xFFFF
    modify (fun s => s.set (.aux a) (.distinguished .noAccess))
    insertIntoAuxmapL1At auxmapL1InsertIx a
    pure a

def getSecmapLowPtr (a : Addr) : Tool Slot := do
  let pmOff := (a >>> 16).toNat
  assert (pmOff < nPrimaryMap)
  pure (.primary pmOff)

def getSecmapHighPtr (a : Addr) : Tool Slot := do
  let am ← findOrAllocInAuxmap a
  pure (.aux am)

def getSecmapPtr (a : Addr) : Tool Slot :=
  if a ≤ maxPrimaryAddress then getSecmapLowPtr a else getSecmapHighPtr a

/- *p. No map is used after it has been given back. -/
def deref (p : Slot) : Tool SmPtr := do
  let s ← get
  match s.at_ p with
  | some (.distinguished d) => pure (.distinguished d)
  | some (.allocated n) => do
    assert (s.mapped n = true)
    pure (.allocated n)
  | none => halt

def copyForWriting (distSm : SmPtr) : Tool SmPtr := do
  assert (distSm.isDistinguished = true)
  let s ← get
  set { s with
    secMaps := Function.update s.secMaps s.issued (s.vabits8 distSm)
    issued := s.issued + 1
    mapped := Function.update s.mapped s.issued true }
  pure (.allocated s.issued)

def getSecmapForReadingLow (a : Addr) : Tool SmPtr := do
  deref (← getSecmapLowPtr a)

def getSecmapForReadingHigh (a : Addr) : Tool SmPtr := do
  deref (← getSecmapHighPtr a)

def writable (p : Slot) : Tool SmPtr := do
  let sm ← deref p
  if sm.isDistinguished then do
    let newSm ← copyForWriting sm
    modify (fun s => s.set p newSm)
    pure newSm
  else pure sm

def getSecmapForWritingLow (a : Addr) : Tool SmPtr := do
  writable (← getSecmapLowPtr a)

def getSecmapForWritingHigh (a : Addr) : Tool SmPtr := do
  writable (← getSecmapHighPtr a)

def getSecmapForReading (a : Addr) : Tool SmPtr :=
  if a ≤ maxPrimaryAddress then getSecmapForReadingLow a else getSecmapForReadingHigh a

def getSecmapForWriting (a : Addr) : Tool SmPtr :=
  if a ≤ maxPrimaryAddress then getSecmapForWritingLow a else getSecmapForWritingHigh a

def insertVabits2IntoVabits8 (a : Addr) (vabits2 vabits8 : UChar) : UChar :=
  let shift := ((a &&& 3) <<< 1).toNat
  (vabits8 &&& ~~~((3 : UChar) <<< shift)) ||| (vabits2 <<< shift)

def extractVabits2FromVabits8 (a : Addr) (vabits8 : UChar) : UChar :=
  let shift := ((a &&& 3) <<< 1).toNat
  3 &&& (vabits8 >>> shift)

def setVabits2 (a : Addr) (vabits2 : UChar) : Tool Unit := do
  let sm ← getSecmapForWriting a
  let off := smOff a
  modify (fun s => s.put sm off (insertVabits2IntoVabits8 a vabits2 (s.vabits8 sm off)))

def getVabits2 (a : Addr) : Tool UChar := do
  let sm ← getSecmapForReading a
  let s ← get
  pure (extractVabits2FromVabits8 a (s.vabits8 sm (smOff a)))

def getVabits8ForAlignedWord32 (a : Addr) : Tool UChar := do
  let sm ← getSecmapForReading a
  let s ← get
  pure (s.vabits8 sm (smOff a))

def setVabits8ForAlignedWord32 (a : Addr) (vabits8 : UChar) : Tool Unit := do
  let sm ← getSecmapForWriting a
  modify (fun s => s.put sm (smOff a) vabits8)

def bytesPerSecVBitNode : Nat := 16

/- VG_ROUNDDN(a, BYTES_PER_SEC_VBIT_NODE) and what is left of a. -/
def roundDn (a : Addr) : Addr := a &&& ~~~15
def amod (a : Addr) : Nat := a.toNat % bytesPerSecVBitNode

def lookup (table : List SecVBitNode) (a : Addr) : Option SecVBitNode := table.find? (fun n => n.a = a)

def keeps (a : Addr) : Nat → Tool Bool
  | 0 => pure false
  | k + 1 => do
    let vabits2 ← getVabits2 (a + BitVec.ofNat 64 (bytesPerSecVBitNode - (k + 1)))
    if vabits2 = vaBits2PartUntainted then pure true else keeps a k

def survivors : List SecVBitNode → Tool (List SecVBitNode)
  | [] => pure []
  | n :: rest => do
    let keep ← keeps n.a bytesPerSecVBitNode
    let others ← survivors rest
    pure (if keep then n :: others else others)

def gcSecVBitTable : Tool Unit := do
  let s ← get
  let table ← survivors s.secVBitTable
  modify (fun s => { s with
    secVBitTable := table,secVBitLimit := s.growth s.secVBitLimit table.length })

def getSecVbits8 (a : Addr) : Tool UChar := do
  let s ← get
  match lookup s.secVBitTable (roundDn a) with
  | none => halt
  | some n => do
    let vbits8 := n.vbits8 (amod a)
    assert (vBits8Untainted ≠ vbits8 ∧ vBits8Tainted ≠ vbits8)
    pure vbits8

def setSecVbits8 (a : Addr) (vbits8 : UChar) : Tool Unit := do
  let s ← get
  assert (vBits8Untainted ≠ vbits8 ∧ vBits8Tainted ≠ vbits8)
  match lookup s.secVBitTable (roundDn a) with
  | some _ => modify (fun s => { s with secVBitTable := s.secVBitTable.map (fun n =>
      if n.a = roundDn a then { n with vbits8 := Function.update n.vbits8 (amod a) vbits8 } else n) })
  | none => do
    -- before the new node is there, or it would be taken for a stale one
    if s.secVBitLimit = s.secVBitTable.length then gcSecVBitTable
    modify (fun s => { s with secVBitTable :=
      ⟨roundDn a,Function.update (fun _ => vBits8Tainted) (amod a) vbits8⟩ :: s.secVBitTable })

def setVbits8 (a : Addr) (vbits8 : UChar) : Tool Bool := do
  let _ ← getVabits2 a
  let vabits2 ←
    if vBits8Untainted = vbits8 then pure vaBits2Untainted
    else if vBits8Tainted = vbits8 then pure vaBits2Tainted
    else do
      setSecVbits8 a vbits8
      pure vaBits2PartUntainted
  setVabits2 a vabits2
  pure true

def getVbits8 (a : Addr) : Tool (Bool × UChar) := do
  let vabits2 ← getVabits2 a
  if vaBits2Untainted = vabits2 then pure (true,vBits8Untainted)
  else if vaBits2Tainted = vabits2 then pure (true,vBits8Tainted)
  else if vaBits2NoAccess = vabits2 then pure (false,vBits8Untainted)
  else do
    assert (vaBits2PartUntainted = vabits2)
    let vbits8 ← getSecVbits8 a
    pure (true,vbits8)

end Autonomizer.ShadowMemory
