import Mathlib
import Autonomizer.VexIR

/-! tnt_translate.c: the instrumentation of a superblock. Beside each value of the block it has
the new one compute which bits of it are tainted, and it tells the tool of each instruction.
Where two arguments of one call both emit code, C leaves the order open. -/
namespace Autonomizer.Translate
open Bits LoadStore ShadowMemory ShadowRuns Total VexIR

inductive LoadSize where
  | v8
  | v16
  | v32
  | v64
  | v128
  | v256
  deriving DecidableEq, Repr

/- The functions of the tool that emitted code calls. The statement or the target an emit
function is told of stands here, not among its arguments. -/
inductive Helper where
  | helpercLOADV (size : LoadSize) (endness : IREndness)
  | helpercSTOREV (w : Width) (endness : IREndness)
  | emitInsn (clone : IRStmt Empty)
  | emitInsn1 (clone : IRStmt Empty)
  | emitNext (clone : IRAtom)
  deriving DecidableEq

def loadType : LoadSize → IRType
  | .v8 => .i8
  | .v16 => .i16
  | .v32 => .i32
  | .v64 => .i64
  | .v128 => .v128
  | .v256 => .v256

def loadEvent (size : LoadSize) (endness : IREndness) (a : Addr) : Event :=
  match size with
  | .v8 => .loadV8 a
  | .v16 => .loadV16 a endness.bigendian
  | .v32 => .loadV32 a endness.bigendian
  | .v64 => .loadV64 a endness.bigendian
  | .v128 => .loadV128 a endness.bigendian
  | .v256 => .loadV256 a endness.bigendian

def storeEvent (w : Width) (endness : IREndness) (a : Addr) (v : ULong) : Event :=
  match w with
  | .w8 => .storeV8 a v
  | .w16 => .storeV16 a v endness.bigendian
  | .w32 => .storeV32 a v endness.bigendian
  | .w64 => .storeV64 a v endness.bigendian

section
variable {σ : Type}

def told (w : World σ) (r : Report) : World σ := { w with log := w.log ++ [r] }

/- The tool is told of something, or fails an assertion. -/
def report (takes : List Report → Report → Bool) (w : World σ) (r : Report) : Option (Value × World σ) :=
  if takes w.log r then some (0,told w r) else none

/- What the helpers do, where `ask` is what the shadow memory does and `takes` are the assertions
of those that report. -/
def helperCalls (ask : Event → σ → Option (List UChar × σ)) (takes : List Report → Report → Bool) :
    Calls Helper σ where
  retty
    | .helpercLOADV size _ => loadType size
    | _ => .i64
  call h args w :=
    match h,args with
    | .helpercLOADV size endness,args =>
      match args.getLast? with
      | some a => (ask (loadEvent size endness (a.setWidth 64)) w.shadow).map
          fun (bytes,shadow) => (fromBytes bytes,{ w with shadow := shadow })
      | none => none
    | .helpercSTOREV width endness,[a,v] =>
      (ask (storeEvent width endness (a.setWidth 64) (v.setWidth 64)) w.shadow).map
        fun (_,shadow) => (0,{ w with shadow := shadow })
    | .emitInsn clone,[value,taint] => report takes w (.insn clone (value.setWidth 64) (taint.setWidth 64))
    | .emitInsn1 clone,[taint] => report takes w (.insn1 clone (taint.setWidth 64))
    | .emitNext clone,[value,taint] => report takes w (.next clone (value.setWidth 64) (taint.setWidth 64))
    | _,_ => none

end

inductive TempKind where
  | orig
  | vSh
  deriving DecidableEq, Repr

structure TempMapEnt where
  kind : TempKind
  shadowV : Option IRTemp
  deriving DecidableEq, Repr

structure Setting where
  bogusLiterals : Bool
  useLLVMworkarounds : Bool
  totalSizeB : Nat
  hWordTy : IRType
  deriving DecidableEq, Repr

structure MCEnv where
  tyenv : List IRType
  stmts : List (IRStmt Helper)
  tmpMap : List TempMapEnt
  setting : Setting

abbrev Build := StateT MCEnv Option

inductive Cat where
  | v
  | c
  deriving DecidableEq, Repr

def shadowTypeV : IRType → IRType
  | .i1 => .i1
  | .i8 => .i8
  | .i16 => .i16
  | .i32 => .i32
  | .i64 => .i64
  | .i128 => .i128
  | .f16 => .i16
  | .f32 => .i32
  | .d32 => .i32
  | .f64 => .i64
  | .d64 => .i64
  | .f128 => .i128
  | .d128 => .i128
  | .v128 => .v128
  | .v256 => .v256

def newTemp (ty : IRType) (kind : TempKind) : Build IRTemp := do
  let mce ← get
  let tmp := mce.tyenv.length
  let newIx := mce.tmpMap.length
  modify fun mce => { mce with tyenv := mce.tyenv ++ [ty],tmpMap := mce.tmpMap ++ [⟨kind,none⟩] }
  assert (newIx = tmp)
  pure tmp

def demand {α : Type} : Option α → Build α
  | some x => pure x
  | none => halt

def typeOfTemp (t : IRTemp) : Build IRType := do
  let mce ← get
  demand mce.tyenv[t]?

def findShadowTmpV (orig : IRTemp) : Build IRTemp := do
  let mce ← get
  let ent ← demand mce.tmpMap[orig]?
  assert (ent.kind = .orig)
  match ent.shadowV with
  | some tmpV => pure tmpV
  | none =>
    let ty ← typeOfTemp orig
    let tmpV ← newTemp (shadowTypeV ty) .vSh
    modify fun mce => { mce with tmpMap := mce.tmpMap.set orig ⟨.orig,some tmpV⟩ }
    pure tmpV

def kindOf (mce : MCEnv) (t : IRTemp) : Option TempKind := (mce.tmpMap[t]?).map (·.kind)

def isOriginalAtom (mce : MCEnv) : IRAtom → Bool
  | .const _ => true
  | .rdTmp t => kindOf mce t = some .orig

def isShadowAtom (mce : MCEnv) : IRAtom → Bool
  | .const _ => true
  | .rdTmp t => kindOf mce t = some .vSh

def sameKindedAtoms : IRAtom → IRAtom → Bool
  | .rdTmp _,.rdTmp _ => true
  | .const _,.const _ => true
  | _,_ => false

def assertOriginal (a : IRAtom) : Build Unit := do
  let mce ← get
  assert (isOriginalAtom mce a)

def assertShadow (a : IRAtom) : Build Unit := do
  let mce ← get
  assert (isShadowAtom mce a)

def stmt (st : IRStmt Helper) : Build Unit := modify fun mce => { mce with stmts := mce.stmts ++ [st] }

def assign (tmp : IRTemp) (expr : IRExpr) : Build Unit := stmt (.wrTmp tmp expr)

def typeOf (e : IRExpr) : Build IRType := do
  let mce ← get
  demand (typeOfIRExpr mce.tyenv e)

def assignNew (cat : Cat) (ty : IRType) (e : IRExpr) : Build IRAtom := do
  let tyE ← typeOf e
  assert (tyE = ty)
  let t ← newTemp ty (match cat with | .v => .vSh | .c => .orig)
  assign t e
  pure (.rdTmp t)

def mkU (w : Word) (n : Nat) : IRAtom :=
  match w with
  | .w32 => .const (.u32 (BitVec.ofNat 32 n))
  | .w64 => .const (.u64 (BitVec.ofNat 64 n))

def mkU8 (n : Nat) : IRAtom := .const (.u8 (BitVec.ofNat 8 n))

def i128ConstZero : IRExpr := .binop .iop64HLto128 (.const (.u64 0)) (.const (.u64 0))

def definedOfType : IRType → Build IRExpr
  | .i1 => pure (.atom (.const (.u1 false)))
  | .i8 => pure (.atom (.const (.u8 0)))
  | .i16 => pure (.atom (.const (.u16 0)))
  | .i32 => pure (.atom (.const (.u32 0)))
  | .i64 => pure (.atom (.const (.u64 0)))
  | .i128 => pure i128ConstZero
  | .v128 => pure (.atom (.const (.v128 0)))
  | .v256 => pure (.atom (.const (.v256 0)))
  | _ => halt

def definedAtom (ty : IRType) : Build IRAtom := do
  let e ← definedOfType ty
  match e with
  | .atom a => pure a
  | _ => halt

/- Defined if either is, undefined if either is, and the Left family: one operation on V bits. -/
def mkBinop (ty : IRType) (op : Binop) (a1 a2 : IRAtom) : Build IRAtom := do
  assertShadow a1
  assertShadow a2
  assignNew .v ty (.binop op a1 a2)

def mkUnop (ty : IRType) (op : Unop) (a1 : IRAtom) : Build IRAtom := do
  assertShadow a1
  assignNew .v ty (.unop op a1)

def mkDifD8 := mkBinop .i8 (.and .w8)
def mkDifD16 := mkBinop .i16 (.and .w16)
def mkDifD32 := mkBinop .i32 (.and .w32)
def mkDifD64 := mkBinop .i64 (.and .w64)
def mkDifDV128 := mkBinop .v128 (.andV .v128)
def mkDifDV256 := mkBinop .v256 (.andV .v256)

def mkUifU8 := mkBinop .i8 (.or .w8)
def mkUifU16 := mkBinop .i16 (.or .w16)
def mkUifU32 := mkBinop .i32 (.or .w32)
def mkUifU64 := mkBinop .i64 (.or .w64)
def mkUifUV128 := mkBinop .v128 (.orV .v128)
def mkUifUV256 := mkBinop .v256 (.orV .v256)

def mkUifU (vty : IRType) (a1 a2 : IRAtom) : Build IRAtom :=
  match vty with
  | .i8 => mkUifU8 a1 a2
  | .i16 => mkUifU16 a1 a2
  | .i32 => mkUifU32 a1 a2
  | .i64 => mkUifU64 a1 a2
  | .v128 => mkUifUV128 a1 a2
  | .v256 => mkUifUV256 a1 a2
  | _ => halt

def mkLeft8 := mkUnop .i8 (.left .w8)
def mkLeft16 := mkUnop .i16 (.left .w16)
def mkLeft32 := mkUnop .i32 (.left .w32)
def mkLeft64 := mkUnop .i64 (.left .w64)

def assertImproves (data vbits : IRAtom) : Build Unit := do
  assertOriginal data
  assertShadow vbits
  assert (sameKindedAtoms data vbits)

/- Defined zeroes of the data make an AND defined. -/
def mkImproveAND (ty : IRType) (opOR : Binop) (data vbits : IRAtom) : Build IRAtom := do
  assertImproves data vbits
  assignNew .v ty (.binop opOR data vbits)

def mkImproveOR (ty : IRType) (opOR : Binop) (opNOT : Unop) (data vbits : IRAtom) : Build IRAtom := do
  assertImproves data vbits
  let not ← assignNew .v ty (.unop opNOT data)
  assignNew .v ty (.binop opOR not vbits)

def mkImproveAND8 := mkImproveAND .i8 (.or .w8)
def mkImproveAND16 := mkImproveAND .i16 (.or .w16)
def mkImproveAND32 := mkImproveAND .i32 (.or .w32)
def mkImproveAND64 := mkImproveAND .i64 (.or .w64)
def mkImproveANDV128 := mkImproveAND .v128 (.orV .v128)
def mkImproveANDV256 := mkImproveAND .v256 (.orV .v256)

def mkImproveOR8 := mkImproveOR .i8 (.or .w8) (.not .w8)
def mkImproveOR16 := mkImproveOR .i16 (.or .w16) (.not .w16)
def mkImproveOR32 := mkImproveOR .i32 (.or .w32) (.not .w32)
def mkImproveOR64 := mkImproveOR .i64 (.or .w64) (.not .w64)
def mkImproveORV128 := mkImproveOR .v128 (.orV .v128) (.notV .v128)
def mkImproveORV256 := mkImproveOR .v256 (.orV .v256) (.notV .v256)

def collapse (srcTy : IRType) (vbits : IRAtom) : Build IRAtom :=
  match srcTy with
  | .i1 => pure vbits
  | .i8 => assignNew .v .i1 (.unop (.cmpNEZ .w8) vbits)
  | .i16 => assignNew .v .i1 (.unop (.cmpNEZ .w16) vbits)
  | .i32 => assignNew .v .i1 (.unop (.cmpNEZ .w32) vbits)
  | .i64 => assignNew .v .i1 (.unop (.cmpNEZ .w64) vbits)
  | .i128 => do
    let tmp2 ← assignNew .v .i64 (.unop .iop128HIto64 vbits)
    let tmp3 ← assignNew .v .i64 (.unop .iop128to64 vbits)
    let tmp4 ← assignNew .v .i64 (.binop (.or .w64) tmp2 tmp3)
    assignNew .v .i1 (.unop (.cmpNEZ .w64) tmp4)
  | .v128 => do
    let tmp2 ← assignNew .v .i64 (.unop .v128HIto64 vbits)
    let tmp3 ← assignNew .v .i64 (.unop .v128to64 vbits)
    let tmp4 ← assignNew .v .i64 (.binop (.or .w64) tmp2 tmp3)
    assignNew .v .i1 (.unop (.cmpNEZ .w64) tmp4)
  | .v256 => do
    let tmp2 ← assignNew .v .i64 (.unop .v256to64_0 vbits)
    let tmp3 ← assignNew .v .i64 (.unop .v256to64_1 vbits)
    let tmp4 ← assignNew .v .i64 (.binop (.or .w64) tmp2 tmp3)
    let tmp5 ← assignNew .v .i64 (.unop .v256to64_2 vbits)
    let tmp6 ← assignNew .v .i64 (.unop .v256to64_3 vbits)
    let tmp7 ← assignNew .v .i64 (.binop (.or .w64) tmp5 tmp6)
    let tmp8 ← assignNew .v .i64 (.binop (.or .w64) tmp4 tmp7)
    assignNew .v .i1 (.unop (.cmpNEZ .w64) tmp8)
  | _ => halt

def spread (dstTy : IRType) (tmp1 : IRAtom) : Build IRAtom :=
  match dstTy with
  | .i1 => pure tmp1
  | .i8 => assignNew .v .i8 (.unop .iop1Sto8 tmp1)
  | .i16 => assignNew .v .i16 (.unop .iop1Sto16 tmp1)
  | .i32 => assignNew .v .i32 (.unop .iop1Sto32 tmp1)
  | .i64 => assignNew .v .i64 (.unop .iop1Sto64 tmp1)
  | .v128 => do
    let tmp1 ← assignNew .v .i64 (.unop .iop1Sto64 tmp1)
    assignNew .v .v128 (.binop .iop64HLtoV128 tmp1 tmp1)
  | .i128 => do
    let tmp1 ← assignNew .v .i64 (.unop .iop1Sto64 tmp1)
    assignNew .v .i128 (.binop .iop64HLto128 tmp1 tmp1)
  | .v256 => do
    let tmp1 ← assignNew .v .i64 (.unop .iop1Sto64 tmp1)
    let tmp1 ← assignNew .v .v128 (.binop .iop64HLtoV128 tmp1 tmp1)
    assignNew .v .v256 (.binop .v128HLtoV256 tmp1 tmp1)
  | _ => halt

def mkPCastTo (dstTy : IRType) (vbits : IRAtom) : Build IRAtom := do
  assertShadow vbits
  let srcTy ← typeOf (.atom vbits)
  match srcTy,dstTy with
  | .i32,.i32 => assignNew .v .i32 (.unop (.cmpwNEZ .w32) vbits)
  | .i64,.i64 => assignNew .v .i64 (.unop (.cmpwNEZ .w64) vbits)
  | .i32,.i64 => do
    let tmp ← assignNew .v .i32 (.unop (.cmpwNEZ .w32) vbits)
    assignNew .v .i64 (.binop .iop32HLto64 tmp tmp)
  | .i32,.v128 => do
    let tmp ← assignNew .v .i32 (.unop (.cmpwNEZ .w32) vbits)
    let tmp ← assignNew .v .i64 (.binop .iop32HLto64 tmp tmp)
    assignNew .v .v128 (.binop .iop64HLtoV128 tmp tmp)
  | .i32,.v256 => do
    let tmp ← assignNew .v .i32 (.unop (.cmpwNEZ .w32) vbits)
    let tmp ← assignNew .v .i64 (.binop .iop32HLto64 tmp tmp)
    let tmp ← assignNew .v .v128 (.binop .iop64HLtoV128 tmp tmp)
    assignNew .v .v256 (.binop .v128HLtoV256 tmp tmp)
  | .i64,.i32 => do
    let tmp ← assignNew .v .i64 (.unop (.cmpwNEZ .w64) vbits)
    assignNew .v .i32 (.unop .iop64to32 tmp)
  | .v128,.i64 => do
    let hi64hi64 ← assignNew .v .v128 (.binop .interleaveHI64x2 vbits vbits)
    let lohi64 ← mkUifUV128 hi64hi64 vbits
    let lo64 ← assignNew .v .i64 (.unop .v128to64 lohi64)
    assignNew .v .i64 (.unop (.cmpwNEZ .w64) lo64)
  | _,_ => do
    let tmp1 ← collapse srcTy vbits
    spread dstTy tmp1

def assertPair (vxx vyy xx yy : IRAtom) : Build Unit := do
  assertShadow vxx
  assertShadow vyy
  assertOriginal xx
  assertOriginal yy
  assert (sameKindedAtoms vxx xx)
  assert (sameKindedAtoms vyy yy)

def allOnes : Width → IRAtom
  | .w8 => .const (.u8 0xFF)
  | .w16 => .const (.u16 0xFFFF)
  | .w32 => .const (.u32 0xFFFFFFFF)
  | .w64 => .const (.u64 0xFFFFFFFFFFFFFFFF)

def cmpWidth : IRType → Build Width
  | .i16 => pure .w16
  | .i32 => pure .w32
  | .i64 => pure .w64
  | _ => halt

def expensiveCmpEQorNE (ty : IRType) (vxx vyy xx yy : IRAtom) : Build IRAtom := do
  assertPair vxx vyy xx yy
  let w ← cmpWidth ty
  let uifu ← assignNew .v ty (.binop (.or w) vxx vyy)
  let naive ← mkPCastTo ty uifu
  let v ← assignNew .v ty (.binop (.or w) vxx vyy)
  let xor ← assignNew .v ty (.binop (.xor w) xx yy)
  let not ← assignNew .v ty (.unop (.not w) xor)
  let vec ← assignNew .v ty (.binop (.or w) v not)
  let cmp ← assignNew .v .i1 (.binop (.cmpEQ w) vec (allOnes w))
  let improvementTerm ← mkPCastTo ty cmp
  let improved ← assignNew .v ty (.binop (.and w) naive improvementTerm)
  mkPCastTo .i1 improved

def isZero (m64 : Word) : IRAtom → Bool
  | .const (.u32 n) => m64 = .w32 ∧ n = 0
  | .const (.u64 n) => m64 = .w64 ∧ n = 0
  | _ => false

def doCmpORD (w : Word) (syned : Bool) (xxhash yyhash xx yy : IRAtom) : Build IRExpr := do
  let ty := w.ty
  let width := ty.bits
  assertPair xxhash yyhash xx yy
  if syned ∧ isZero w yy then
    -- a zero has no tainted bits
    assert (isZero w yyhash)
    let pcast ← mkPCastTo ty xxhash
    let low ← assignNew .v ty (.binop (.and w.width) pcast (mkU w 6))
    let sign ← assignNew .v ty (.binop (.shr w.width) xxhash (mkU8 (width - 1)))
    let high ← assignNew .v ty (.binop (.shl w.width) sign (mkU8 3))
    pure (.binop (.or w.width) low high)
  else
    let uifu ← mkUifU ty xxhash yyhash
    let pcast ← mkPCastTo ty uifu
    pure (.binop (.and w.width) pcast (mkU w 14))

/- Lazy propagation: a tainted bit of an operand taints all of the result. -/
def mkLazy2 (finalVty : IRType) (va1 va2 : IRAtom) : Build IRAtom := do
  let t1 ← typeOf (.atom va1)
  let t2 ← typeOf (.atom va2)
  assertShadow va1
  assertShadow va2
  match t1,t2,finalVty with
  | .i64,.i64,.i64 => do
    let at_ ← mkUifU .i64 va1 va2
    mkPCastTo .i64 at_
  | .i64,.i64,.i32 => do
    let at_ ← mkUifU .i64 va1 va2
    mkPCastTo .i32 at_
  | _,_,_ => do
    let at1 ← mkPCastTo .i32 va1
    let at2 ← mkPCastTo .i32 va2
    let at_ ← mkUifU .i32 at1 at2
    mkPCastTo finalVty at_

/- The types it asks for; for others it fails. -/
def mkLazy3 (finalVty : IRType) (va1 va2 va3 : IRAtom) : Build IRAtom := do
  let t1 ← typeOf (.atom va1)
  let t2 ← typeOf (.atom va2)
  let t3 ← typeOf (.atom va3)
  assertShadow va1
  assertShadow va2
  assertShadow va3
  match t1,t2,t3,finalVty with
  | .i32,.i64,.i64,.i64 => do
    let at_ ← mkPCastTo .i64 va1
    let at_ ← mkUifU .i64 at_ va2
    let at_ ← mkUifU .i64 at_ va3
    mkPCastTo .i64 at_
  | .i32,.i8,.i64,.i64 => do
    let at1 ← mkPCastTo .i64 va1
    let at2 ← mkPCastTo .i64 va2
    let at_ ← mkUifU .i64 at1 at2
    let at_ ← mkUifU .i64 at_ va3
    mkPCastTo .i64 at_
  | .i32,.i64,.i64,.i32 => do
    let at_ ← mkPCastTo .i64 va1
    let at_ ← mkUifU .i64 at_ va2
    let at_ ← mkUifU .i64 at_ va3
    mkPCastTo .i32 at_
  | .i32,.i32,.i32,.i32 => do
    let at_ ← mkUifU .i32 va1 va2
    let at_ ← mkUifU .i32 at_ va3
    mkPCastTo .i32 at_
  | .i32,.i128,.i128,.i128 => do
    let at_ ← mkPCastTo .i128 va1
    let at_ ← mkUifU .i128 at_ va2
    let at_ ← mkUifU .i128 at_ va3
    mkPCastTo .i128 at_
  | .i32,.i8,.i128,.i128 => do
    let at1 ← mkPCastTo .i64 va1
    let at2 ← mkPCastTo .i64 va2
    let at3 ← mkPCastTo .i64 va3
    let at_ ← mkUifU .i64 at1 at2
    let at_ ← mkUifU .i64 at_ at3
    mkPCastTo .i128 at_
  | _,_,_,_ => halt

def atom2vbits : IRAtom → Build IRAtom
  | .rdTmp t => do
    let v ← findShadowTmpV t
    pure (.rdTmp v)
  | .const con => definedAtom (shadowTypeV (typeOfIRConst con))

def ignored (cee : IRCallee) (i : Nat) : Bool := cee.mcxMask.getLsbD i

/- Whether all arguments that count have type I64. -/
def mergeTy64 (cee : IRCallee) : List IRAtom → Nat → Build Bool
  | [],_ => pure true
  | a :: rest,i => do
    assert (i < 32)
    assertOriginal a
    if ignored cee i then mergeTy64 cee rest (i + 1)
    else
      let ty ← typeOf (.atom a)
      let all ← mergeTy64 cee rest (i + 1)
      pure (ty = .i64 ∧ all)

def mergeUifU : Word → IRAtom → IRAtom → Build IRAtom
  | .w64 => mkUifU64
  | .w32 => mkUifU32

def mergeArgs (cee : IRCallee) (w : Word) : List IRAtom → Nat → IRAtom → Build IRAtom
  | [],_,curr => pure curr
  | a :: rest,i,curr => do
    assert (i < 32)
    assertOriginal a
    if ignored cee i then mergeArgs cee w rest (i + 1) curr
    else
      let vatom ← atom2vbits a
      let here ← mkPCastTo w.ty vatom
      let curr ← mergeUifU w here curr
      mergeArgs cee w rest (i + 1) curr

def mkLazyN (exprvec : List IRAtom) (finalVtype : IRType) (cee : IRCallee) : Build IRAtom := do
  let all ← mergeTy64 cee exprvec 0
  let w := if all then Word.w64 else .w32
  let curr ← definedAtom w.ty
  let curr ← mergeArgs cee w exprvec 0 curr
  mkPCastTo finalVtype curr

def sumWidth : IRType → Build Width
  | .i32 => pure .w32
  | .i64 => pure .w64
  | _ => halt

/- The carry chain, exactly: the least and the greatest result the tainted bits allow. -/
def expensiveAddSub (add : Bool) (ty : IRType) (qaa qbb aa bb : IRAtom) : Build IRAtom := do
  assertPair qaa qbb aa bb
  let w ← sumWidth ty
  let notA ← assignNew .v ty (.unop (.not w) qaa)
  let aMin ← assignNew .v ty (.binop (.and w) aa notA)
  let notB ← assignNew .v ty (.unop (.not w) qbb)
  let bMin ← assignNew .v ty (.binop (.and w) bb notB)
  let aMax ← assignNew .v ty (.binop (.or w) aa qaa)
  let bMax ← assignNew .v ty (.binop (.or w) bb qbb)
  if add then
    let either ← assignNew .v ty (.binop (.or w) qaa qbb)
    let low ← assignNew .v ty (.binop (.add w) aMin bMin)
    let high ← assignNew .v ty (.binop (.add w) aMax bMax)
    let differ ← assignNew .v ty (.binop (.xor w) low high)
    assignNew .v ty (.binop (.or w) either differ)
  else
    let either ← assignNew .v ty (.binop (.or w) qaa qbb)
    let low ← assignNew .v ty (.binop (.sub w) aMin bMax)
    let high ← assignNew .v ty (.binop (.sub w) aMax bMin)
    let differ ← assignNew .v ty (.binop (.xor w) low high)
    assignNew .v ty (.binop (.or w) either differ)

def expensiveCountTrailingZeroes (w : Word) (atom vatom : IRAtom) : Build IRAtom := do
  assertShadow vatom
  assertOriginal atom
  assert (sameKindedAtoms atom vatom)
  let ty := w.ty
  let less ← assignNew .v ty (.binop (.sub w.width) atom (mkU w 1))
  let improver ← assignNew .v ty (.binop (.xor w.width) atom less)
  let improved ← assignNew .v ty (.binop (.and w.width) vatom improver)
  mkPCastTo ty improved

def scalarShift (ty : IRType) (originalOp : Binop) (qaa qbb aa bb : IRAtom) : Build IRAtom := do
  assertPair qaa qbb aa bb
  let shifted ← assignNew .v ty (.binop originalOp qaa bb)
  let amount ← mkPCastTo ty qbb
  let either ← mkUifU ty shifted amount
  assignNew .v ty (.atom either)

def doAndOr (ty : IRType) (uifu difd improve : IRAtom → IRAtom → Build IRAtom)
    (vatom1 vatom2 atom1 atom2 : IRAtom) : Build IRAtom := do
  let either ← uifu vatom1 vatom2
  let first ← improve atom1 vatom1
  let second ← improve atom2 vatom2
  let both ← difd first second
  let all ← difd either both
  assignNew .v ty (.atom all)

def cheapAddSub (w : Width) (vatom1 vatom2 : IRAtom) : Build IRAtom :=
  match w with
  | .w8 => do mkLeft8 (← mkUifU8 vatom1 vatom2)
  | .w16 => do mkLeft16 (← mkUifU16 vatom1 vatom2)
  | .w32 => do mkLeft32 (← mkUifU32 vatom1 vatom2)
  | .w64 => do mkLeft64 (← mkUifU64 vatom1 vatom2)

def cheapCmp (ty : IRType) (vatom1 vatom2 : IRAtom) : Build IRAtom := do
  let either ← mkUifU ty vatom1 vatom2
  mkPCastTo .i1 either

/- The low half of a product as for a sum, the high half tainted if any of it is. -/
def mullVbits (w : Width) (op : Binop) (vatom1 vatom2 : IRAtom) : Build IRAtom := do
  let vLo ← cheapAddSub w vatom1 vatom2
  let vHi ← mkPCastTo (widthTy w) vLo
  assignNew .v (twice w) (.binop op vHi vLo)

def expr2vbitsBinop (op : Binop) (atom1 atom2 : IRAtom) : Build IRExpr := do
  let vatom1 ← atom2vbits atom1
  let vatom2 ← atom2vbits atom2
  assertPair vatom1 vatom2 atom1 atom2
  let mce ← get
  let bogus := mce.setting.bogusLiterals
  let llvm := mce.setting.useLLVMworkarounds
  match op with
  | .divMod64to32 _ => .atom <$> mkLazy2 .i64 vatom1 vatom2
  | .divMod128to64 _ => .atom <$> mkLazy2 .i128 vatom1 vatom2
  | .iop8HLto16 => .atom <$> assignNew .v .i16 (.binop op vatom1 vatom2)
  | .iop16HLto32 => .atom <$> assignNew .v .i32 (.binop op vatom1 vatom2)
  | .iop32HLto64 => .atom <$> assignNew .v .i64 (.binop op vatom1 vatom2)
  | .iop64HLto128 => .atom <$> assignNew .v .i128 (.binop op vatom1 vatom2)
  | .iop64HLtoV128 => .atom <$> assignNew .v .v128 (.binop op vatom1 vatom2)
  | .v128HLtoV256 => .atom <$> assignNew .v .v256 (.binop op vatom1 vatom2)
  | .interleaveHI64x2 => .atom <$> assignNew .v .v128 (.binop op vatom1 vatom2)
  | .divModS64to64 | .mull .w64 _ => .atom <$> mullVbits .w64 .iop64HLto128 vatom1 vatom2
  | .mull .w32 _ => .atom <$> mullVbits .w32 .iop32HLto64 vatom1 vatom2
  | .mull .w16 _ => .atom <$> mullVbits .w16 .iop16HLto32 vatom1 vatom2
  | .mull .w8 _ => .atom <$> mullVbits .w8 .iop8HLto16 vatom1 vatom2
  | .sad8Ux4 | .div .w32 _ | .divE .w32 _ | .qAdd32S | .qSub32S | .cmpF64 | .f64toI32S | .f64toF32 =>
    .atom <$> mkLazy2 .i32 vatom1 vatom2
  | .div .w64 _ | .divE .w64 _ | .sqrtF64 | .roundF64toInt | .f64toI64S | .i64StoF64 =>
    .atom <$> mkLazy2 .i64 vatom1 vatom2
  | .add .w32 =>
    if bogus ∨ llvm then .atom <$> expensiveAddSub true .i32 vatom1 vatom2 atom1 atom2
    else .atom <$> cheapAddSub .w32 vatom1 vatom2
  | .sub .w32 =>
    if bogus then .atom <$> expensiveAddSub false .i32 vatom1 vatom2 atom1 atom2
    else .atom <$> cheapAddSub .w32 vatom1 vatom2
  | .add .w64 =>
    if bogus ∨ llvm then .atom <$> expensiveAddSub true .i64 vatom1 vatom2 atom1 atom2
    else .atom <$> cheapAddSub .w64 vatom1 vatom2
  | .sub .w64 =>
    if bogus then .atom <$> expensiveAddSub false .i64 vatom1 vatom2 atom1 atom2
    else .atom <$> cheapAddSub .w64 vatom1 vatom2
  | .mul w => .atom <$> cheapAddSub w vatom1 vatom2
  | .add .w16 | .sub .w16 => .atom <$> cheapAddSub .w16 vatom1 vatom2
  | .add .w8 | .sub .w8 => .atom <$> cheapAddSub .w8 vatom1 vatom2
  | .cmpORD w syned => doCmpORD w syned vatom1 vatom2 atom1 atom2
  | .cmpEQ .w64 | .cmpNE .w64 =>
    if bogus then .atom <$> expensiveCmpEQorNE .i64 vatom1 vatom2 atom1 atom2
    else .atom <$> cheapCmp .i64 vatom1 vatom2
  | .expCmpNE .w64 => .atom <$> expensiveCmpEQorNE .i64 vatom1 vatom2 atom1 atom2
  | .cmpEQ .w32 | .cmpNE .w32 =>
    if bogus then .atom <$> expensiveCmpEQorNE .i32 vatom1 vatom2 atom1 atom2
    else .atom <$> cheapCmp .i32 vatom1 vatom2
  | .expCmpNE .w32 => .atom <$> expensiveCmpEQorNE .i32 vatom1 vatom2 atom1 atom2
  | .cmpLE w _ | .cmpLT w _ => .atom <$> cheapCmp w.ty vatom1 vatom2
  | .cmpEQ .w16 | .cmpNE .w16 => .atom <$> cheapCmp .i16 vatom1 vatom2
  | .expCmpNE .w16 => .atom <$> expensiveCmpEQorNE .i16 vatom1 vatom2 atom1 atom2
  | .cmpEQ .w8 | .cmpNE .w8 => .atom <$> cheapCmp .i8 vatom1 vatom2
  -- no case is for ExpCmpNE8
  | .expCmpNE .w8 => halt
  | .casCmpEQ _ | .casCmpNE _ => do
    let defined ← definedOfType .i1
    .atom <$> assignNew .v .i1 defined
  | .shl .w64 | .shr .w64 | .sar .w64 => .atom <$> scalarShift .i64 op vatom1 vatom2 atom1 atom2
  | .shl .w32 | .shr .w32 | .sar .w32 => .atom <$> scalarShift .i32 op vatom1 vatom2 atom1 atom2
  | .shl .w16 | .shr .w16 | .sar .w16 => .atom <$> scalarShift .i16 op vatom1 vatom2 atom1 atom2
  | .shl .w8 | .shr .w8 | .sar .w8 => .atom <$> scalarShift .i8 op vatom1 vatom2 atom1 atom2
  | .andV .v256 => .atom <$> doAndOr .v256 mkUifUV256 mkDifDV256 mkImproveANDV256 vatom1 vatom2 atom1 atom2
  | .andV .v128 => .atom <$> doAndOr .v128 mkUifUV128 mkDifDV128 mkImproveANDV128 vatom1 vatom2 atom1 atom2
  | .and .w64 => .atom <$> doAndOr .i64 mkUifU64 mkDifD64 mkImproveAND64 vatom1 vatom2 atom1 atom2
  | .and .w32 => .atom <$> doAndOr .i32 mkUifU32 mkDifD32 mkImproveAND32 vatom1 vatom2 atom1 atom2
  | .and .w16 => .atom <$> doAndOr .i16 mkUifU16 mkDifD16 mkImproveAND16 vatom1 vatom2 atom1 atom2
  | .and .w8 => .atom <$> doAndOr .i8 mkUifU8 mkDifD8 mkImproveAND8 vatom1 vatom2 atom1 atom2
  | .orV .v256 => .atom <$> doAndOr .v256 mkUifUV256 mkDifDV256 mkImproveORV256 vatom1 vatom2 atom1 atom2
  | .orV .v128 => .atom <$> doAndOr .v128 mkUifUV128 mkDifDV128 mkImproveORV128 vatom1 vatom2 atom1 atom2
  | .or .w64 => .atom <$> doAndOr .i64 mkUifU64 mkDifD64 mkImproveOR64 vatom1 vatom2 atom1 atom2
  | .or .w32 => .atom <$> doAndOr .i32 mkUifU32 mkDifD32 mkImproveOR32 vatom1 vatom2 atom1 atom2
  | .or .w16 => .atom <$> doAndOr .i16 mkUifU16 mkDifD16 mkImproveOR16 vatom1 vatom2 atom1 atom2
  | .or .w8 => .atom <$> doAndOr .i8 mkUifU8 mkDifD8 mkImproveOR8 vatom1 vatom2 atom1 atom2
  | .xor .w8 => .atom <$> mkUifU8 vatom1 vatom2
  | .xor .w16 => .atom <$> mkUifU16 vatom1 vatom2
  | .xor .w32 => .atom <$> mkUifU32 vatom1 vatom2
  | .xor .w64 => .atom <$> mkUifU64 vatom1 vatom2
  | .xorV .v128 => .atom <$> mkUifUV128 vatom1 vatom2
  | .xorV .v256 => .atom <$> mkUifUV256 vatom1 vatom2

def expr2vbitsUnop (op : Unop) (atom : IRAtom) : Build IRAtom := do
  let vatom ← atom2vbits atom
  assertOriginal atom
  match op with
  | .f32toF64 | .i32StoF64 | .i32UtoF64 | .negF64 | .absF64 | .clz .w64 => mkPCastTo .i64 vatom
  | .clz .w32 | .negF32 | .absF32 => mkPCastTo .i32 vatom
  | .ctz w => expensiveCountTrailingZeroes w atom vatom
  | .iop32UtoV128 | .iop64UtoV128 | .v256toV128_0 | .v256toV128_1 => assignNew .v .v128 (.unop op vatom)
  | .iop1Uto64 | .iop1Sto64 | .iop8Uto64 | .iop8Sto64 | .iop16Uto64 | .iop16Sto64 | .iop32Sto64 | .iop32Uto64 |
    .v128to64 | .v128HIto64 | .iop128HIto64 | .iop128to64 | .v256to64_0 | .v256to64_1 | .v256to64_2 | .v256to64_3 =>
    assignNew .v .i64 (.unop op vatom)
  | .iop64to32 | .iop64HIto32 | .iop1Uto32 | .iop1Sto32 | .iop8Uto32 | .iop16Uto32 | .iop16Sto32 | .iop8Sto32 |
    .v128to32 => assignNew .v .i32 (.unop op vatom)
  | .iop8Sto16 | .iop8Uto16 | .iop32to16 | .iop32HIto16 | .iop64to16 => assignNew .v .i16 (.unop op vatom)
  | .iop1Uto8 | .iop1Sto8 | .iop16to8 | .iop16HIto8 | .iop32to8 | .iop64to8 => assignNew .v .i8 (.unop op vatom)
  | .iop32to1 => assignNew .v .i1 (.unop .iop32to1 vatom)
  | .iop64to1 => assignNew .v .i1 (.unop .iop64to1 vatom)
  | .reinterpF64asI64 | .reinterpI64asF64 | .reinterpI32asF32 | .reinterpF32asI32 | .notV _ | .not _ | .not1 =>
    pure vatom
  | .cmpwNEZ .w32 => mkPCastTo .i32 vatom
  | .cmpwNEZ .w64 => mkPCastTo .i64 vatom
  -- made by the tool, and for it only
  | .iop1Sto16 | .left _ | .cmpNEZ _ => halt

def expr2vbitsTriop (op : Triop) (atom1 atom2 atom3 : IRAtom) : Build IRAtom := do
  let vatom1 ← atom2vbits atom1
  let vatom2 ← atom2vbits atom2
  let vatom3 ← atom2vbits atom3
  assertPair vatom1 vatom2 atom1 atom2
  assertShadow vatom3
  assertOriginal atom3
  assert (sameKindedAtoms atom3 vatom3)
  match op with
  | .addF128 => mkLazy3 .i128 vatom1 vatom2 vatom3
  | .addF64 | .subF64 | .mulF64 | .divF64 | .pRemF64 => mkLazy3 .i64 vatom1 vatom2 vatom3
  | .pRemC3210F64 => mkLazy3 .i32 vatom1 vatom2 vatom3
  | .addF32 | .subF32 | .mulF32 | .divF32 => mkLazy3 .i32 vatom1 vatom2 vatom3

end Autonomizer.Translate
