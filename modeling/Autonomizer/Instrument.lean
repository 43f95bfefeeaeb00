import Mathlib
import Autonomizer.Translate

/-! The shadows of expressions and statements, and TNT_(instrument). -/
namespace Autonomizer.Instrument
open Bits LoadStore ShadowMemory ShadowRuns Total Translate VexIR

def hostWord : Build IRType := do
  let mce ← get
  let tyAddr := mce.setting.hWordTy
  assert (tyAddr = .i32 ∨ tyAddr = .i64)
  pure tyAddr

def wordConst (ty : IRType) (n : Nat) : IRAtom := if ty = .i32 then mkU .w32 n else mkU .w64 n

def mkAdd (ty : IRType) : Binop := if ty = .i32 then .add .w32 else .add .w64

def withBias (tyAddr : IRType) (addr : IRAtom) (bias : Nat) : Build IRAtom :=
  assignNew .v tyAddr (.binop (mkAdd tyAddr) addr (wordConst tyAddr bias))

def biased (addr : IRAtom) (bias : Nat) : Build IRAtom :=
  if bias = 0 then pure addr
  else do
    let tyAddr ← hostWord
    withBias tyAddr addr bias

def true_ : IRAtom := .const (.u1 true)

def loadSize : IRType → Option LoadSize
  | .v256 => some .v256
  | .v128 => some .v128
  | .i64 => some .v64
  | .i32 => some .v32
  | .i16 => some .v16
  | .i8 => some .v8
  | _ => none

def viaOutparam : LoadSize → Bool
  | .v256 | .v128 => true
  | _ => false

/- The helpers for vectors answer through a pointer, their first argument. -/
def expr2vbitsLoadWRK (endness : IREndness) (ty : IRType) (addr : IRAtom) (bias : Nat) (guard : Option IRAtom) :
    Build IRAtom := do
  assertOriginal addr
  let ty := shadowTypeV ty
  match loadSize ty with
  | none => halt
  | some size =>
    let addrAct ← biased addr bias
    let datavbits ← newTemp ty .vSh
    let args := if viaOutparam size then [IRArg.vecret,.atom addrAct] else [.atom addrAct]
    stmt (.dirty ⟨.helpercLOADV size endness,args,guard.getD true_,some datavbits⟩)
    pure (.rdTmp datavbits)

def expr2vbitsLoad (endness : IREndness) (ty : IRType) (addr : IRAtom) (bias : Nat) (guard : Option IRAtom) :
    Build IRAtom :=
  match shadowTypeV ty with
  | .i8 | .i16 | .i32 | .i64 | .v128 | .v256 => expr2vbitsLoadWRK endness ty addr bias guard
  | _ => halt

def wideType (ty : IRType) : Option Unop → Build IRType
  | none => pure ty
  | some .iop16Uto32 | some .iop16Sto32 | some .iop8Uto32 | some .iop8Sto32 => pure .i32
  | _ => halt

def widenV (tyWide : IRType) (loaded : IRAtom) : Option Unop → Build IRAtom
  | none => pure loaded
  | some op => assignNew .v tyWide (.unop op loaded)

def expr2vbitsLoadGuardedGeneral (endness : IREndness) (ty : IRType) (addr : IRAtom) (bias : Nat)
    (guard : Option IRAtom) (vwiden : Option Unop) (valt : IRAtom) : Build IRAtom := do
  let tyWide ← wideType ty vwiden
  let loaded ← expr2vbitsLoad endness ty addr bias guard
  let iftrue1 ← assignNew .v ty (.atom loaded)
  let iftrue2 ← widenV tyWide iftrue1 vwiden
  assignNew .v tyWide (.ite (guard.getD true_) iftrue2 valt)

def expr2vbitsITE (cond iftrue iffalse : IRAtom) : Build IRAtom := do
  assertOriginal cond
  assertOriginal iftrue
  assertOriginal iffalse
  let vbitsC ← atom2vbits cond
  let vbitsT ← atom2vbits iftrue
  let vbitsF ← atom2vbits iffalse
  let ty ← typeOf (.atom vbitsT)
  let steered ← assignNew .v ty (.ite cond vbitsT vbitsF)
  let pcast ← mkPCastTo ty vbitsC
  mkUifU ty steered pcast

/- The guest state is followed by its shadow. -/
def shadowGET (offset : Nat) (ty : IRType) : Build IRExpr := do
  let mce ← get
  assert (ty ≠ .i1)
  pure (.get (offset + mce.setting.totalSizeB) (shadowTypeV ty))

def shadowDescr (setting : Setting) (descr : IRRegArray) : IRRegArray :=
  ⟨descr.base + setting.totalSizeB,shadowTypeV descr.elemTy,descr.nElems⟩

def shadowGETI (descr : IRRegArray) (ix : IRAtom) (bias : Int) : Build IRExpr := do
  let mce ← get
  assert (descr.elemTy ≠ .i1)
  assertOriginal ix
  pure (.getI (shadowDescr mce.setting descr) ix bias)

def expr2vbits : IRExpr → Build IRExpr
  | .get offset ty => shadowGET offset ty
  | .getI descr ix bias => shadowGETI descr ix bias
  | .atom a => .atom <$> atom2vbits a
  | .triop op arg1 arg2 arg3 => .atom <$> expr2vbitsTriop op arg1 arg2 arg3
  | .binop op arg1 arg2 => expr2vbitsBinop op arg1 arg2
  | .unop op arg => .atom <$> expr2vbitsUnop op arg
  | .load endness ty addr => .atom <$> expr2vbitsLoad endness ty addr 0 none
  | .ccall cee retty args => .atom <$> mkLazyN args retty cee
  | .ite cond iftrue iffalse => .atom <$> expr2vbitsITE cond iftrue iffalse

/- Both ways to widen to the word of the host: V bits, and values of the block. -/
def zwiden (cat : Cat) (tyH : IRType) (atom : IRAtom) : Build IRAtom := do
  let ty ← typeOf (.atom atom)
  match tyH,ty with
  | .i32,.i32 => pure atom
  | .i32,.i16 => assignNew cat tyH (.unop .iop16Uto32 atom)
  | .i32,.i8 => assignNew cat tyH (.unop .iop8Uto32 atom)
  | .i32,.i1 => assignNew cat tyH (.unop .iop1Uto32 atom)
  | .i64,.i64 => pure atom
  | .i64,.i32 => assignNew cat tyH (.unop .iop32Uto64 atom)
  | .i64,.i16 => do
    let half ← assignNew cat .i32 (.unop .iop16Uto32 atom)
    assignNew cat tyH (.unop .iop32Uto64 half)
  | .i64,.i8 => do
    let half ← assignNew cat .i32 (.unop .iop8Uto32 atom)
    assignNew cat tyH (.unop .iop32Uto64 half)
  | .i64,.i1 => do
    let half ← assignNew cat .i32 (.unop .iop1Uto32 atom)
    assignNew cat tyH (.unop .iop32Uto64 half)
  | _,_ => halt

def zwidenToHostWord (vatom : IRAtom) : Build IRAtom := do
  assertShadow vatom
  let mce ← get
  zwiden .v mce.setting.hWordTy vatom

def zwidenToHostWordC (atom : IRAtom) : Build IRAtom := do
  let mce ← get
  zwiden .c mce.setting.hWordTy atom

def callHelper (cee : Helper) (args : List IRAtom) (guard : Option IRAtom) : Build Unit :=
  stmt (.dirty ⟨cee,args.map .atom,guard.getD true_,none⟩)

def emitWhole (clone : IRStmt Empty) (data vdata : IRAtom) : Build Unit := do
  let value ← zwidenToHostWordC data
  let taint ← zwidenToHostWord vdata
  callHelper (.emitInsn clone) [value,taint] none

def emitTaint (clone : IRStmt Empty) (tyAddr : IRType) (vdata : IRAtom) : Build Unit := do
  let taint ← mkPCastTo tyAddr vdata
  callHelper (.emitInsn1 clone) [taint] none

/- Tells the tool of an instruction: its value, where it fits in a word, and its taint. -/
def createDirtyEMIT (clone : IRStmt Empty) (data : IRAtom) : Build Unit := do
  let vdata ← atom2vbits data
  let tyAddr ← hostWord
  assertShadow vdata
  let ty ← typeOf (.atom data)
  match ty with
  | .v256 | .v128 | .i128 | .f128 | .d128 | .d64 | .d32 | .f64 | .f32 | .f16 => emitTaint clone tyAddr vdata
  | .i64 => if tyAddr = .i32 then emitTaint clone tyAddr vdata else emitWhole clone data vdata
  | .i32 | .i16 | .i8 | .i1 => emitWhole clone data vdata

def createDirtyNEXT (next : IRAtom) : Build Unit :=
  match next with
  | .const _ => pure ()
  | .rdTmp _ => do
    let vatom ← atom2vbits next
    callHelper (.emitNext next) [next,vatom] none

def doShadowWRTMP (clone : IRStmt Empty) (tmp : IRTemp) (expr : IRExpr) : Build Unit := do
  stmt (.wrTmp tmp expr)
  let vexpr ← expr2vbits expr
  let tmpV ← findShadowTmpV tmp
  assign tmpV vexpr
  createDirtyEMIT clone (.rdTmp tmp)

def doShadowPUT (clone : IRStmt Empty) (offset : Nat) (atom : IRAtom) : Build Unit := do
  assertOriginal atom
  let vatom ← atom2vbits atom
  let ty ← typeOf (.atom vatom)
  assert (ty ≠ .i1)
  let mce ← get
  stmt (.put (offset + mce.setting.totalSizeB) vatom)
  createDirtyEMIT clone atom

def doShadowPUTI (clone : IRStmt Empty) (descr : IRRegArray) (ix : IRAtom) (bias : Int) (atom : IRAtom) :
    Build Unit := do
  assertOriginal atom
  let vatom ← atom2vbits atom
  assert (sameKindedAtoms atom vatom)
  assert (descr.elemTy ≠ .i1)
  assertOriginal ix
  createDirtyEMIT clone atom
  let mce ← get
  stmt (.putI (shadowDescr mce.setting descr) ix bias vatom)

/- What is stored: a value of the block, or V bits. -/
inductive Stored where
  | data (a : IRAtom)
  | vdata (a : IRAtom)

def storeWidth : IRType → Option Width
  | .i64 => some .w64
  | .i32 => some .w32
  | .i16 => some .w16
  | .i8 => some .w8
  | _ => none

def lanes128 : IREndness → List (Nat × Unop)
  | .le => [(0,.v128to64),(8,.v128HIto64)]
  | .be => [(8,.v128to64),(0,.v128HIto64)]

def lanes256 : List (Nat × Unop) := [(0,.v256to64_0),(8,.v256to64_1),(16,.v256to64_2),(24,.v256to64_3)]

def laneStores (tyAddr : IRType) (addr : IRAtom) (bias : Nat) (vdata : IRAtom) :
    List (Nat × Unop) → Build (List (IRAtom × IRAtom))
  | [] => pure []
  | (off,op) :: rest => do
    let addrAct ← withBias tyAddr addr (bias + off)
    let lane ← assignNew .v .i64 (.unop op vdata)
    let stores ← laneStores tyAddr addr bias vdata rest
    pure ((addrAct,lane) :: stores)

def storeLanes (endness : IREndness) (guard : Option IRAtom) : List (IRAtom × IRAtom) → Build Unit
  | [] => pure ()
  | (addrAct,lane) :: rest => do
    callHelper (.helpercSTOREV .w64 endness) [addrAct,lane] guard
    storeLanes endness guard rest

def storedVbits (bias : Nat) : Stored → Build IRAtom
  | .data data => do
    assertOriginal data
    assert (bias = 0)
    atom2vbits data
  | .vdata vdata => pure vdata

def assertGuard : Option IRAtom → Build Unit
  | none => pure ()
  | some guard => do
    assertOriginal guard
    let ty ← typeOf (.atom guard)
    assert (ty = .i1)

/- A store of V bits alone is told of by none. -/
def storeEmits (clone : Option (IRStmt Empty)) (endness : IREndness) (addr : IRAtom) : Stored → Build Unit
  | .data data => createDirtyEMIT (clone.getD (.store endness addr data)) data
  | .vdata _ => pure ()

def hostVbits (ty : IRType) (vdata : IRAtom) : Build IRAtom :=
  if ty = .i64 then pure vdata else zwidenToHostWord vdata

def doShadowStore (clone : Option (IRStmt Empty)) (endness : IREndness) (addr : IRAtom) (bias : Nat)
    (what : Stored) (guard : Option IRAtom) : Build Unit := do
  let tyAddr ← hostWord
  let vdata ← storedVbits bias what
  assertOriginal addr
  assertShadow vdata
  assertGuard guard
  let ty ← typeOf (.atom vdata)
  storeEmits clone endness addr what
  match ty,endness with
  | .v256,.le => do
    let stores ← laneStores tyAddr addr bias vdata lanes256
    storeLanes endness guard stores
  | .v128,_ => do
    let stores ← laneStores tyAddr addr bias vdata (lanes128 endness)
    storeLanes endness guard stores
  | _,_ =>
    match storeWidth ty with
    | none => halt
    | some w => do
      let addrAct ← biased addr bias
      let v ← hostVbits ty vdata
      callHelper (.helpercSTOREV w endness) [addrAct,v] guard

def casCmp (elemTy : IRType) : Option Width := storeWidth elemTy

def zeroOf : Width → IRAtom
  | .w8 => .const (.u8 0)
  | .w16 => .const (.u16 0)
  | .w32 => .const (.u32 0)
  | .w64 => .const (.u64 0)

def bindShadowTmpToOrig (orig : IRTemp) (shadow : IRAtom) : Build Unit := do
  assertOriginal (.rdTmp orig)
  assertShadow shadow
  match shadow with
  | .const _ => halt
  | .rdTmp _ => do
    let tmpV ← findShadowTmpV orig
    assign tmpV (.atom shadow)

def fetch (elemTy : IRType) (atom : IRAtom) : Build IRAtom := do
  assertOriginal atom
  let vatom ← atom2vbits atom
  assignNew .v elemTy (.atom vatom)

def loadOld (elemTy : IRType) (cas : IRCAS) (bias : Nat) : Build IRAtom := do
  let loaded ← expr2vbitsLoad cas.endness elemTy cas.addr bias none
  assignNew .v elemTy (.atom loaded)

def doShadowCASSingle (cas : IRCAS) : Build Unit := do
  let elemTy ← typeOf (.atom cas.expdLo)
  match casCmp elemTy with
  | none => halt
  | some w =>
    let vdataLo ← fetch elemTy cas.dataLo
    let _ ← fetch elemTy cas.expdLo
    let voldLo ← loadOld elemTy cas 0
    bindShadowTmpToOrig cas.oldLo voldLo
    stmt (.cas cas)
    let expdEqOld ← assignNew .c .i1 (.binop (.casCmpEQ w) cas.expdLo (.rdTmp cas.oldLo))
    doShadowStore none cas.endness cas.addr 0 (.vdata vdataLo) (some expdEqOld)

def doShadowCASDouble (cas : IRCAS) (hi : IRCASHi) : Build Unit := do
  let elemTy ← typeOf (.atom cas.expdLo)
  match casCmp elemTy with
  | none => halt
  | some w =>
    let vdataHi ← fetch elemTy hi.data
    let vdataLo ← fetch elemTy cas.dataLo
    let _ ← fetch elemTy hi.expd
    let _ ← fetch elemTy cas.expdLo
    let (memOffsLo,memOffsHi) := casOffsets cas.endness (sizeofIRType elemTy)
    let voldHi ← loadOld elemTy cas memOffsHi
    let voldLo ← loadOld elemTy cas memOffsLo
    bindShadowTmpToOrig hi.old voldHi
    bindShadowTmpToOrig cas.oldLo voldLo
    stmt (.cas cas)
    let xHi ← assignNew .c elemTy (.binop (.xor w) hi.expd (.rdTmp hi.old))
    let xLo ← assignNew .c elemTy (.binop (.xor w) cas.expdLo (.rdTmp cas.oldLo))
    let xHL ← assignNew .c elemTy (.binop (.or w) xHi xLo)
    let expdEqOld ← assignNew .c .i1 (.binop (.casCmpEQ w) xHL (zeroOf w))
    doShadowStore none cas.endness cas.addr memOffsHi (.vdata vdataHi) (some expdEqOld)
    doShadowStore none cas.endness cas.addr memOffsLo (.vdata vdataLo) (some expdEqOld)

def doShadowCAS (cas : IRCAS) : Build Unit :=
  match cas.hi with
  | none => doShadowCASSingle cas
  | some hi => doShadowCASDouble cas hi

def doShadowStoreG (sg : IRStoreG) : Build Unit :=
  doShadowStore none sg.endness sg.addr 0 (.data sg.data) (some sg.guard)

def doShadowLoadG (lg : IRLoadG) : Build Unit := do
  let vbitsAlt ← atom2vbits lg.alt
  let vbitsFinal ← expr2vbitsLoadGuardedGeneral lg.endness (loadGOp lg.cvt).1 lg.addr 0 (some lg.guard)
    (loadGOp lg.cvt).2 vbitsAlt
  let tmpV ← findShadowTmpV lg.dst
  assign tmpV (.atom vbitsFinal)

/- Literals as bit tricks on whole words use them. -/
def isBogusNumber (n : Nat) : Bool :=
  n = 0xFEFEFEFF ∨ n = 0x80808080 ∨ n = 0x7F7F7F7F ∨ n = 0x7EFEFEFF ∨ n = 0x81010100 ∨ n = 0xFFFFFFFFFEFEFEFF ∨
    n = 0xFEFEFEFEFEFEFEFF ∨ n = 0x0000000000008080 ∨ n = 0x8080808080808080 ∨ n = 0x0101010101010101

def isBogusAtom : IRAtom → Bool
  | .rdTmp _ => false
  | .const (.u8 n) => isBogusNumber n.toNat
  | .const (.u16 n) => isBogusNumber n.toNat
  | .const (.u32 n) => isBogusNumber n.toNat
  | .const (.u64 n) => isBogusNumber n.toNat
  | .const _ => false

def bogusExpr : IRExpr → Bool
  | .get _ _ => false
  | .atom a => isBogusAtom a
  | .unop _ arg => isBogusAtom arg
  | .getI _ ix _ => isBogusAtom ix
  | .binop _ arg1 arg2 => isBogusAtom arg1 || isBogusAtom arg2
  | .triop _ arg1 arg2 arg3 => isBogusAtom arg1 || isBogusAtom arg2 || isBogusAtom arg3
  | .ite cond iftrue iffalse => isBogusAtom cond || isBogusAtom iftrue || isBogusAtom iffalse
  | .load _ _ addr => isBogusAtom addr
  | .ccall _ _ args => args.any isBogusAtom

def checkForBogusLiterals : IRStmt Empty → Bool
  | .wrTmp _ data => bogusExpr data
  | .dirty d => d.cee.elim
  | .put _ data => isBogusAtom data
  | .putI _ ix _ data => isBogusAtom ix || isBogusAtom data
  | .store _ addr data => isBogusAtom addr || isBogusAtom data
  | .storeG sg => isBogusAtom sg.addr || isBogusAtom sg.data || isBogusAtom sg.guard
  | .loadG lg => isBogusAtom lg.addr || isBogusAtom lg.alt || isBogusAtom lg.guard
  | .exit guard _ => isBogusAtom guard
  | .abiHint base _ nia => isBogusAtom base || isBogusAtom nia
  | .noOp | .iMark _ _ | .mbe => false
  | .cas cas => isBogusAtom cas.addr || (cas.hi.any fun hi => isBogusAtom hi.expd) || isBogusAtom cas.expdLo ||
      (cas.hi.any fun hi => isBogusAtom hi.data) || isBogusAtom cas.dataLo

def shadowStmt (st : IRStmt Empty) : Build Unit :=
  match st with
  | .wrTmp tmp data => doShadowWRTMP st tmp data
  | .put offset data => doShadowPUT st offset data
  | .putI descr ix bias data => doShadowPUTI st descr ix bias data
  | .store endness addr data => doShadowStore (some st) endness addr 0 (.data data) none
  | .storeG sg => doShadowStoreG sg
  | .loadG lg => doShadowLoadG lg
  | .exit guard _ => createDirtyEMIT st guard
  | .iMark _ _ | .noOp | .mbe | .abiHint _ _ _ => pure ()
  | .dirty d => d.cee.elim
  | .cas cas => doShadowCAS cas

/- A copied statement comes behind its shadow, but for those the shadow has copied. -/
def instrumentStmt (st : IRStmt Empty) : Build Unit := do
  shadowStmt st
  match st with
  | .cas _ | .wrTmp _ _ => pure ()
  | _ => stmt st.copy

def instrumentStmts : List (IRStmt Empty) → Build Unit
  | [] => pure ()
  | st :: rest => do
    instrumentStmt st
    instrumentStmts rest

def isIMark : IRStmt Empty → Bool
  | .iMark _ _ => true
  | _ => false

/- Statements before the first IMark are copied as they are. -/
def preamble (stmts : List (IRStmt Empty)) : List (IRStmt Empty) := stmts.takeWhile fun st => !isIMark st

def copyStmts : List (IRStmt Empty) → Build Unit
  | [] => pure ()
  | st :: rest => do
    stmt st.copy
    copyStmts rest

/- What they assign has no shadow yet, and is defined. -/
def definePreamble : List (IRStmt Empty) → Build Unit
  | [] => pure ()
  | .wrTmp tmp _ :: rest => do
    let tmpV ← findShadowTmpV tmp
    let tyV ← typeOfTemp tmpV
    let defined ← definedOfType tyV
    assign tmpV defined
    definePreamble rest
  | _ :: rest => definePreamble rest

def instrumentBody (sbIn : IRSB Empty) : Build Unit := do
  let before := preamble sbIn.stmts
  copyStmts before
  definePreamble before
  assert (before.length < sbIn.stmts.length)
  instrumentStmts (sbIn.stmts.drop before.length)
  createDirtyNEXT sbIn.next
  let mce ← get
  assert (mce.tmpMap.length = mce.tyenv.length)

structure Layout where
  totalSizeB : Nat

def startEnv (sbIn : IRSB Empty) (layout : Layout) (hWordTy : IRType) (darwin : Bool) : MCEnv where
  tyenv := sbIn.tyenv
  stmts := []
  tmpMap := sbIn.tyenv.map fun _ => ⟨.orig,none⟩
  setting := ⟨sbIn.stmts.any checkForBogusLiterals,darwin,layout.totalSizeB,hWordTy⟩

def instrument (sbIn : IRSB Empty) (layout : Layout) (gWordTy hWordTy : IRType) (darwin : Bool) :
    Option (IRSB Helper) :=
  if gWordTy ≠ hWordTy then none
  else (instrumentBody sbIn (startEnv sbIn layout hWordTy darwin)).map fun (_,mce) =>
    ⟨mce.tyenv,mce.stmts,sbIn.next⟩

end Autonomizer.Instrument
