import Mathlib
import Autonomizer.Bits
import Autonomizer.ShadowRuns

/-! Flat superblocks of VEX IR and what they do to a machine. A dirty call calls one of a type
of helpers: code that is read in has none, code that is written out those of the tool. -/
namespace Autonomizer.VexIR
open Bits LoadStore ShadowMemory ShadowRuns Spans

abbrev Value := BitVec 256
abbrev IRTemp := Nat

inductive IRType where
  | i1
  | i8
  | i16
  | i32
  | i64
  | i128
  | f16
  | f32
  | f64
  | d32
  | d64
  | d128
  | f128
  | v128
  | v256
  deriving DecidableEq, Repr

def IRType.bits : IRType → Nat
  | .i1 => 1
  | .i8 => 8
  | .i16 | .f16 => 16
  | .i32 | .f32 | .d32 => 32
  | .i64 | .f64 | .d64 => 64
  | .i128 | .f128 | .d128 | .v128 => 128
  | .v256 => 256

/- In bytes. Never asked of I1. -/
def sizeofIRType (ty : IRType) : Nat := ty.bits / 8

/- A constant. A vector has a bit for each of its bytes, all of whose bits it is. -/
inductive IRConst where
  | u1 (n : Bool)
  | u8 (n : BitVec 8)
  | u16 (n : BitVec 16)
  | u32 (n : BitVec 32)
  | u64 (n : BitVec 64)
  | f32i (n : BitVec 32)
  | f64i (n : BitVec 64)
  | v128 (n : BitVec 16)
  | v256 (n : BitVec 32)
  deriving DecidableEq, Repr

def typeOfIRConst : IRConst → IRType
  | .u1 _ => .i1
  | .u8 _ => .i8
  | .u16 _ => .i16
  | .u32 _ => .i32
  | .u64 _ => .i64
  | .f32i _ => .f32
  | .f64i _ => .f64
  | .v128 _ => .v128
  | .v256 _ => .v256

inductive IRAtom where
  | rdTmp (tmp : IRTemp)
  | const (con : IRConst)
  deriving DecidableEq, Repr

/- The operations that come in 32 and 64 bits only. -/
inductive Word where
  | w32
  | w64
  deriving DecidableEq, Repr

inductive Vec where
  | v128
  | v256
  deriving DecidableEq, Repr

def widthTy : Width → IRType
  | .w8 => .i8
  | .w16 => .i16
  | .w32 => .i32
  | .w64 => .i64

def Word.ty : Word → IRType
  | .w32 => .i32
  | .w64 => .i64

def Word.width : Word → Width
  | .w32 => .w32
  | .w64 => .w64

def Vec.ty : Vec → IRType
  | .v128 => .v128
  | .v256 => .v256

/- Iop_ with one operand. The last ones are not looked into. -/
inductive Unop where
  | not1
  | not (w : Width)
  | notV (v : Vec)
  | left (w : Width)
  | cmpNEZ (w : Width)
  | cmpwNEZ (w : Word)
  | ctz (w : Word)
  | clz (w : Word)
  | iop1Uto8
  | iop1Uto32
  | iop1Uto64
  | iop1Sto8
  | iop1Sto16
  | iop1Sto32
  | iop1Sto64
  | iop8Uto16
  | iop8Uto32
  | iop8Uto64
  | iop16Uto32
  | iop16Uto64
  | iop32Uto64
  | iop8Sto16
  | iop8Sto32
  | iop8Sto64
  | iop16Sto32
  | iop16Sto64
  | iop32Sto64
  | iop64to1
  | iop32to1
  | iop64to8
  | iop32to8
  | iop16to8
  | iop16HIto8
  | iop64to16
  | iop32to16
  | iop32HIto16
  | iop64to32
  | iop64HIto32
  | iop128to64
  | iop128HIto64
  | v128to32
  | v128to64
  | v128HIto64
  | v256to64_0
  | v256to64_1
  | v256to64_2
  | v256to64_3
  | v256toV128_0
  | v256toV128_1
  | iop32UtoV128
  | iop64UtoV128
  | reinterpF64asI64
  | reinterpI64asF64
  | reinterpF32asI32
  | reinterpI32asF32
  | negF32
  | absF32
  | negF64
  | absF64
  | f32toF64
  | i32StoF64
  | i32UtoF64
  deriving DecidableEq, Repr

/- Iop_ with two operands. The last ones are not looked into. -/
inductive Binop where
  | add (w : Width)
  | sub (w : Width)
  | mul (w : Width)
  | and (w : Width)
  | or (w : Width)
  | xor (w : Width)
  | andV (v : Vec)
  | orV (v : Vec)
  | xorV (v : Vec)
  | shl (w : Width)
  | shr (w : Width)
  | sar (w : Width)
  | cmpEQ (w : Width)
  | cmpNE (w : Width)
  | casCmpEQ (w : Width)
  | casCmpNE (w : Width)
  | expCmpNE (w : Width)
  | cmpLT (w : Word) (syned : Bool)
  | cmpLE (w : Word) (syned : Bool)
  | cmpORD (w : Word) (syned : Bool)
  | mull (w : Width) (syned : Bool)
  | iop8HLto16
  | iop16HLto32
  | iop32HLto64
  | iop64HLto128
  | iop64HLtoV128
  | v128HLtoV256
  | interleaveHI64x2
  | div (w : Word) (syned : Bool)
  | divE (w : Word) (syned : Bool)
  | divMod64to32 (syned : Bool)
  | divMod128to64 (syned : Bool)
  | divModS64to64
  | qAdd32S
  | qSub32S
  | sad8Ux4
  | cmpF64
  | sqrtF64
  | roundF64toInt
  | f64toI64S
  | i64StoF64
  | f64toI32S
  | f64toF32
  deriving DecidableEq, Repr

/- Iop_ with three operands: floating point, with its rounding mode first. -/
inductive Triop where
  | addF64
  | subF64
  | mulF64
  | divF64
  | pRemF64
  | pRemC3210F64
  | addF32
  | subF32
  | mulF32
  | divF32
  | addF128
  deriving DecidableEq, Repr

/- typeOfPrimop: the type of the result and those of the operands. -/
def Unop.type : Unop → IRType × IRType
  | .not1 => (.i1,.i1)
  | .not w | .left w => (widthTy w,widthTy w)
  | .notV v => (v.ty,v.ty)
  | .cmpNEZ w => (.i1,widthTy w)
  | .cmpwNEZ w | .ctz w | .clz w => (w.ty,w.ty)
  | .iop1Uto8 | .iop1Sto8 => (.i8,.i1)
  | .iop1Sto16 => (.i16,.i1)
  | .iop1Uto32 | .iop1Sto32 => (.i32,.i1)
  | .iop1Uto64 | .iop1Sto64 => (.i64,.i1)
  | .iop8Uto16 | .iop8Sto16 => (.i16,.i8)
  | .iop8Uto32 | .iop8Sto32 => (.i32,.i8)
  | .iop8Uto64 | .iop8Sto64 => (.i64,.i8)
  | .iop16Uto32 | .iop16Sto32 => (.i32,.i16)
  | .iop16Uto64 | .iop16Sto64 => (.i64,.i16)
  | .iop32Uto64 | .iop32Sto64 => (.i64,.i32)
  | .iop64to1 => (.i1,.i64)
  | .iop32to1 => (.i1,.i32)
  | .iop64to8 => (.i8,.i64)
  | .iop32to8 => (.i8,.i32)
  | .iop16to8 | .iop16HIto8 => (.i8,.i16)
  | .iop64to16 => (.i16,.i64)
  | .iop32to16 | .iop32HIto16 => (.i16,.i32)
  | .iop64to32 | .iop64HIto32 => (.i32,.i64)
  | .iop128to64 | .iop128HIto64 => (.i64,.i128)
  | .v128to32 => (.i32,.v128)
  | .v128to64 | .v128HIto64 => (.i64,.v128)
  | .v256to64_0 | .v256to64_1 | .v256to64_2 | .v256to64_3 => (.i64,.v256)
  | .v256toV128_0 | .v256toV128_1 => (.v128,.v256)
  | .iop32UtoV128 => (.v128,.i32)
  | .iop64UtoV128 => (.v128,.i64)
  | .reinterpF64asI64 => (.i64,.f64)
  | .reinterpI64asF64 => (.f64,.i64)
  | .reinterpF32asI32 => (.i32,.f32)
  | .reinterpI32asF32 => (.f32,.i32)
  | .negF32 | .absF32 => (.f32,.f32)
  | .negF64 | .absF64 => (.f64,.f64)
  | .f32toF64 => (.f64,.f32)
  | .i32StoF64 | .i32UtoF64 => (.f64,.i32)

def twice : Width → IRType
  | .w8 => .i16
  | .w16 => .i32
  | .w32 => .i64
  | .w64 => .i128

def Binop.type : Binop → IRType × IRType × IRType
  | .add w | .sub w | .mul w | .and w | .or w | .xor w => (widthTy w,widthTy w,widthTy w)
  | .andV v | .orV v | .xorV v => (v.ty,v.ty,v.ty)
  | .shl w | .shr w | .sar w => (widthTy w,widthTy w,.i8)
  | .cmpEQ w | .cmpNE w | .casCmpEQ w | .casCmpNE w | .expCmpNE w => (.i1,widthTy w,widthTy w)
  | .cmpLT w _ | .cmpLE w _ => (.i1,w.ty,w.ty)
  | .cmpORD w _ | .div w _ | .divE w _ => (w.ty,w.ty,w.ty)
  | .mull w _ => (twice w,widthTy w,widthTy w)
  | .iop8HLto16 => (.i16,.i8,.i8)
  | .iop16HLto32 => (.i32,.i16,.i16)
  | .iop32HLto64 => (.i64,.i32,.i32)
  | .iop64HLto128 => (.i128,.i64,.i64)
  | .iop64HLtoV128 => (.v128,.i64,.i64)
  | .v128HLtoV256 => (.v256,.v128,.v128)
  | .interleaveHI64x2 => (.v128,.v128,.v128)
  | .divMod64to32 _ => (.i64,.i64,.i32)
  | .divMod128to64 _ => (.i128,.i128,.i64)
  | .divModS64to64 => (.i128,.i64,.i64)
  | .qAdd32S | .qSub32S | .sad8Ux4 => (.i32,.i32,.i32)
  | .cmpF64 => (.i32,.f64,.f64)
  | .sqrtF64 | .roundF64toInt => (.f64,.i32,.f64)
  | .f64toI64S => (.i64,.i32,.f64)
  | .i64StoF64 => (.f64,.i32,.i64)
  | .f64toI32S => (.i32,.i32,.f64)
  | .f64toF32 => (.f32,.i32,.f64)

def Triop.type : Triop → IRType × IRType × IRType × IRType
  | .addF64 | .subF64 | .mulF64 | .divF64 | .pRemF64 => (.f64,.i32,.f64,.f64)
  | .pRemC3210F64 => (.i32,.i32,.f64,.f64)
  | .addF32 | .subF32 | .mulF32 | .divF32 => (.f32,.i32,.f32,.f32)
  | .addF128 => (.f128,.i32,.f128,.f128)

structure IRRegArray where
  base : Nat
  elemTy : IRType
  nElems : Nat
  deriving DecidableEq, Repr

/- A clean helper. The tool leaves alone the arguments whose bit is set in the mask. -/
structure IRCallee where
  addr : BitVec 64
  mcxMask : BitVec 32
  deriving DecidableEq, Repr

inductive IREndness where
  | le
  | be
  deriving DecidableEq, Repr

def IREndness.bigendian : IREndness → Bool
  | .le => false
  | .be => true

inductive IRExpr where
  | atom (a : IRAtom)
  | get (offset : Nat) (ty : IRType)
  | getI (descr : IRRegArray) (ix : IRAtom) (bias : Int)
  | unop (op : Unop) (arg : IRAtom)
  | binop (op : Binop) (arg1 arg2 : IRAtom)
  | triop (op : Triop) (arg1 arg2 arg3 : IRAtom)
  | load (endness : IREndness) (ty : IRType) (addr : IRAtom)
  | ccall (cee : IRCallee) (retty : IRType) (args : List IRAtom)
  | ite (cond iftrue iffalse : IRAtom)
  deriving DecidableEq, Repr

inductive IRLoadGOp where
  | identV128
  | ident64
  | ident32
  | cvt16Uto32
  | cvt16Sto32
  | cvt8Uto32
  | cvt8Sto32
  deriving DecidableEq, Repr

structure IRStoreG where
  endness : IREndness
  addr : IRAtom
  data : IRAtom
  guard : IRAtom
  deriving DecidableEq, Repr

structure IRLoadG where
  endness : IREndness
  cvt : IRLoadGOp
  dst : IRTemp
  addr : IRAtom
  alt : IRAtom
  guard : IRAtom
  deriving DecidableEq, Repr

structure IRCASHi where
  old : IRTemp
  expd : IRAtom
  data : IRAtom
  deriving DecidableEq, Repr

structure IRCAS where
  hi : Option IRCASHi
  oldLo : IRTemp
  endness : IREndness
  addr : IRAtom
  expdLo : IRAtom
  dataLo : IRAtom
  deriving DecidableEq, Repr

inductive IRArg where
  | vecret
  | atom (a : IRAtom)
  deriving DecidableEq, Repr

structure IRDirty (κ : Type) where
  cee : κ
  args : List IRArg
  guard : IRAtom
  tmp : Option IRTemp
  deriving DecidableEq

inductive IRStmt (κ : Type) where
  | noOp
  | iMark (addr : BitVec 64) (len : Nat)
  | abiHint (base : IRAtom) (len : Nat) (nia : IRAtom)
  | put (offset : Nat) (data : IRAtom)
  | putI (descr : IRRegArray) (ix : IRAtom) (bias : Int) (data : IRAtom)
  | wrTmp (tmp : IRTemp) (data : IRExpr)
  | store (endness : IREndness) (addr data : IRAtom)
  | storeG (details : IRStoreG)
  | loadG (details : IRLoadG)
  | cas (details : IRCAS)
  | dirty (details : IRDirty κ)
  | mbe
  | exit (guard : IRAtom) (dst : BitVec 64)
  deriving DecidableEq

def IRStmt.copy {κ : Type} : IRStmt Empty → IRStmt κ
  | .noOp => .noOp
  | .iMark addr len => .iMark addr len
  | .abiHint base len nia => .abiHint base len nia
  | .put offset data => .put offset data
  | .putI descr ix bias data => .putI descr ix bias data
  | .wrTmp tmp data => .wrTmp tmp data
  | .store endness addr data => .store endness addr data
  | .storeG details => .storeG details
  | .loadG details => .loadG details
  | .cas details => .cas details
  | .dirty details => details.cee.elim
  | .mbe => .mbe
  | .exit guard dst => .exit guard dst

structure IRSB (κ : Type) where
  tyenv : List IRType
  stmts : List (IRStmt κ)
  next : IRAtom
  deriving DecidableEq

def typeOfIRAtom (tyenv : List IRType) : IRAtom → Option IRType
  | .rdTmp tmp => tyenv[tmp]?
  | .const con => some (typeOfIRConst con)

def typeOfIRExpr (tyenv : List IRType) : IRExpr → Option IRType
  | .atom a => typeOfIRAtom tyenv a
  | .get _ ty => some ty
  | .getI descr _ _ => some descr.elemTy
  | .unop op _ => some op.type.1
  | .binop op _ _ => some op.type.1
  | .triop op _ _ _ => some op.type.1
  | .load _ ty _ => some ty
  | .ccall _ retty _ => some retty
  | .ite _ iftrue _ => typeOfIRAtom tyenv iftrue

/- The operations and the helpers whose results are not looked into. -/
structure Prims where
  unop : Unop → Value → Value
  binop : Binop → Value → Value → Value
  triop : Triop → Value → Value → Value → Value
  ccall : BitVec 64 → List Value → Value

/- A value with its type. Bits above those of the type are not looked at. -/
structure Val where
  ty : IRType
  bits : Value
  deriving DecidableEq, Repr

def fromBytes : List UChar → Value
  | [] => 0
  | b :: rest => (fromBytes rest <<< 8) ||| b.setWidth 256

def nthByte (v : Value) (i : Nat) : UChar := (v >>> (8 * i)).setWidth 8

def constBits : IRConst → Value
  | .u1 n => flag n
  | .u8 n => n.setWidth 256
  | .u16 n => n.setWidth 256
  | .u32 n => n.setWidth 256
  | .u64 n => n.setWidth 256
  | .f32i n => n.setWidth 256
  | .f64i n => n.setWidth 256
  | .v128 n => fromBytes ((List.range 16).map fun i => if n.getLsbD i then 0xFF else 0)
  | .v256 n => fromBytes ((List.range 32).map fun i => if n.getLsbD i then 0xFF else 0)

def isTrue (v : Value) : Bool := v.getLsbD 0

def trailing (n : Nat) (v : Value) : Nat := ((List.range n).find? fun i => v.getLsbD i).getD n
def leading (n : Nat) (v : Value) : Nat := ((List.range n).find? fun i => v.getLsbD (n - 1 - i)).getD n

section
variable (prims : Prims)

def Unop.eval (op : Unop) (x : Value) : Value :=
  match op with
  | .not1 => cut 1 (~~~x)
  | .not w => cut w.bits (~~~x)
  | .notV v => cut v.ty.bits (~~~x)
  | .left w => Bits.left w.bits x
  | .cmpNEZ w => flag (cut w.bits x ≠ 0)
  | .cmpwNEZ w => pcast w.ty.bits w.ty.bits x
  | .ctz w => BitVec.ofNat 256 (trailing w.ty.bits x)
  | .clz w => BitVec.ofNat 256 (leading w.ty.bits x)
  | .iop1Uto8 | .iop1Uto32 | .iop1Uto64 => cut 1 x
  | .iop8Uto16 | .iop8Uto32 | .iop8Uto64 => cut 8 x
  | .iop16Uto32 | .iop16Uto64 => cut 16 x
  | .iop32Uto64 | .iop32UtoV128 => cut 32 x
  | .iop64UtoV128 => cut 64 x
  | .iop1Sto8 => cut 8 (sext 1 x)
  | .iop1Sto16 => cut 16 (sext 1 x)
  | .iop1Sto32 => cut 32 (sext 1 x)
  | .iop1Sto64 => cut 64 (sext 1 x)
  | .iop8Sto16 => cut 16 (sext 8 x)
  | .iop8Sto32 => cut 32 (sext 8 x)
  | .iop8Sto64 => cut 64 (sext 8 x)
  | .iop16Sto32 => cut 32 (sext 16 x)
  | .iop16Sto64 => cut 64 (sext 16 x)
  | .iop32Sto64 => cut 64 (sext 32 x)
  | .iop64to1 | .iop32to1 => cut 1 x
  | .iop64to8 | .iop32to8 | .iop16to8 => cut 8 x
  | .iop64to16 | .iop32to16 => cut 16 x
  | .iop64to32 | .v128to32 | .reinterpF32asI32 | .reinterpI32asF32 => cut 32 x
  | .iop128to64 | .v128to64 | .v256to64_0 | .reinterpF64asI64 | .reinterpI64asF64 => cut 64 x
  | .v256toV128_0 => cut 128 x
  | .iop16HIto8 => cut 8 (x >>> 8)
  | .iop32HIto16 => cut 16 (x >>> 16)
  | .iop64HIto32 => cut 32 (x >>> 32)
  | .iop128HIto64 | .v128HIto64 | .v256to64_1 => cut 64 (x >>> 64)
  | .v256to64_2 => cut 64 (x >>> 128)
  | .v256to64_3 => cut 64 (x >>> 192)
  | .v256toV128_1 => cut 128 (x >>> 128)
  | .negF32 | .absF32 | .negF64 | .absF64 | .f32toF64 | .i32StoF64 | .i32UtoF64 =>
    prims.unop op (cut op.type.2.bits x)

def concat (n : Nat) (hi lo : Value) : Value := (cut n hi <<< n) ||| cut n lo

def ord (less equal : Bool) : Value := if less then 8 else if equal then 2 else 4

def Binop.eval (op : Binop) (x y : Value) : Value :=
  match op with
  | .add w => cut w.bits (x + y)
  | .sub w => cut w.bits (x - y)
  | .mul w => cut w.bits (x * y)
  | .and w => cut w.bits (x &&& y)
  | .or w => cut w.bits (x ||| y)
  | .xor w => cut w.bits (x ^^^ y)
  | .andV v => cut v.ty.bits (x &&& y)
  | .orV v => cut v.ty.bits (x ||| y)
  | .xorV v => cut v.ty.bits (x ^^^ y)
  | .shl w => cut w.bits (x <<< (cut 8 y).toNat)
  | .shr w => cut w.bits x >>> (cut 8 y).toNat
  | .sar w => cut w.bits ((sext w.bits x).sshiftRight (cut 8 y).toNat)
  | .cmpEQ w | .casCmpEQ w => flag (cut w.bits x = cut w.bits y)
  | .cmpNE w | .casCmpNE w | .expCmpNE w => flag (cut w.bits x ≠ cut w.bits y)
  | .cmpLT w false => flag ((cut w.ty.bits x).ult (cut w.ty.bits y))
  | .cmpLT w true => flag ((sext w.ty.bits x).slt (sext w.ty.bits y))
  | .cmpLE w false => flag ((cut w.ty.bits x).ule (cut w.ty.bits y))
  | .cmpLE w true => flag ((sext w.ty.bits x).sle (sext w.ty.bits y))
  | .cmpORD w false => ord ((cut w.ty.bits x).ult (cut w.ty.bits y)) (cut w.ty.bits x = cut w.ty.bits y)
  | .cmpORD w true => ord ((sext w.ty.bits x).slt (sext w.ty.bits y)) (cut w.ty.bits x = cut w.ty.bits y)
  | .mull w false => cut (2 * w.bits) (cut w.bits x * cut w.bits y)
  | .mull w true => cut (2 * w.bits) (sext w.bits x * sext w.bits y)
  | .iop8HLto16 => concat 8 x y
  | .iop16HLto32 => concat 16 x y
  | .iop32HLto64 => concat 32 x y
  | .iop64HLto128 | .iop64HLtoV128 => concat 64 x y
  | .v128HLtoV256 => concat 128 x y
  | .interleaveHI64x2 => concat 64 (x >>> 64) (y >>> 64)
  | .div _ _ | .divE _ _ | .divMod64to32 _ | .divMod128to64 _ | .divModS64to64 | .qAdd32S | .qSub32S | .sad8Ux4 |
    .cmpF64 | .sqrtF64 | .roundF64toInt | .f64toI64S | .i64StoF64 | .f64toI32S | .f64toF32 =>
    prims.binop op (cut op.type.2.1.bits x) (cut op.type.2.2.bits y)

def Triop.eval (op : Triop) (x y z : Value) : Value :=
  prims.triop op (cut op.type.2.1.bits x) (cut op.type.2.2.1.bits y) (cut op.type.2.2.2.bits z)

inductive Report where
  | insn (clone : IRStmt Empty) (value taint : ULong)
  | insn1 (clone : IRStmt Empty) (taint : ULong)
  | next (clone : IRAtom) (value taint : ULong)
  deriving DecidableEq

/- All but the temporaries: the guest state with its shadow, the memory, the shadow memory and
what the tool has been told. -/
structure World (σ : Type) where
  state : Nat → UChar
  mem : Addr → UChar
  shadow : σ
  log : List Report

structure Machine (σ : Type) where
  tmp : IRTemp → Val
  world : World σ

def readState (state : Nat → UChar) (offset n : Nat) : Value :=
  fromBytes ((List.range n).map fun i => state (offset + i))

def writeState (state : Nat → UChar) (offset n : Nat) (v : Value) : Nat → UChar := fun k =>
  if offset ≤ k ∧ k < offset + n then nthByte v (k - offset) else state k

def readMem (mem : Addr → UChar) (a : Addr) (n : Nat) (endness : IREndness) : Value :=
  fromBytes (word mem a n endness.bigendian)

def writeMem (mem : Addr → UChar) (a : Addr) (n : Nat) (endness : IREndness) (v : Value) : Addr → UChar :=
  overwrite mem a n (fun i => nthByte v (byteOffsetW n endness.bigendian i))

def arrayOffset (descr : IRRegArray) (ix : Value) (bias : Int) : Nat :=
  descr.base + ((((cut 32 ix).toNat : Int) + bias) % (descr.nElems : Int)).toNat * sizeofIRType descr.elemTy

variable {σ κ : Type}

def evalAtom (tmp : IRTemp → Val) : IRAtom → Val
  | .rdTmp t => tmp t
  | .const con => ⟨typeOfIRConst con,constBits con⟩

def addrOf (v : Val) : Addr := v.bits.setWidth 64

def eval (s : Machine σ) : IRExpr → Val
  | .atom a => evalAtom s.tmp a
  | .get offset ty => ⟨ty,readState s.world.state offset (sizeofIRType ty)⟩
  | .getI descr ix bias => ⟨descr.elemTy,readState s.world.state
      (arrayOffset descr (evalAtom s.tmp ix).bits bias) (sizeofIRType descr.elemTy)⟩
  | .unop op arg => ⟨op.type.1,op.eval prims (evalAtom s.tmp arg).bits⟩
  | .binop op arg1 arg2 => ⟨op.type.1,op.eval prims (evalAtom s.tmp arg1).bits (evalAtom s.tmp arg2).bits⟩
  | .triop op arg1 arg2 arg3 => ⟨op.type.1,op.eval prims (evalAtom s.tmp arg1).bits
      (evalAtom s.tmp arg2).bits (evalAtom s.tmp arg3).bits⟩
  | .load endness ty addr => ⟨ty,readMem s.world.mem (addrOf (evalAtom s.tmp addr)) (sizeofIRType ty) endness⟩
  | .ccall cee retty args => ⟨retty,cut retty.bits (prims.ccall cee.addr
      (args.map fun a => cut (evalAtom s.tmp a).ty.bits (evalAtom s.tmp a).bits))⟩
  | .ite cond iftrue iffalse =>
    if isTrue (evalAtom s.tmp cond).bits then evalAtom s.tmp iftrue else evalAtom s.tmp iffalse

def Machine.set (s : Machine σ) (t : IRTemp) (v : Val) : Machine σ := { s with tmp := Function.update s.tmp t v }

def Machine.writes (s : Machine σ) (endness : IREndness) (a : Addr) (v : Val) : Machine σ :=
  { s with world := { s.world with mem := writeMem s.world.mem a (sizeofIRType v.ty) endness v.bits } }

def Machine.puts (s : Machine σ) (offset : Nat) (v : Val) : Machine σ :=
  { s with world := { s.world with state := writeState s.world.state offset (sizeofIRType v.ty) v.bits } }

def loadGOp : IRLoadGOp → IRType × Option Unop
  | .identV128 => (.v128,none)
  | .ident64 => (.i64,none)
  | .ident32 => (.i32,none)
  | .cvt16Uto32 => (.i16,some .iop16Uto32)
  | .cvt16Sto32 => (.i16,some .iop16Sto32)
  | .cvt8Uto32 => (.i8,some .iop8Uto32)
  | .cvt8Sto32 => (.i8,some .iop8Sto32)

def widen (cvt : IRLoadGOp) (v : Value) : Val :=
  match loadGOp cvt with
  | (ty,none) => ⟨ty,v⟩
  | (_,some op) => ⟨op.type.1,op.eval prims v⟩

def casOffsets (endness : IREndness) (elemSzB : Nat) : Nat × Nat :=
  match endness with
  | .le => (0,elemSzB)
  | .be => (elemSzB,0)

def doCAS (s : Machine σ) (cas : IRCAS) : Machine σ :=
  let addr := addrOf (evalAtom s.tmp cas.addr)
  let expd := evalAtom s.tmp cas.expdLo
  let n := sizeofIRType expd.ty
  match cas.hi with
  | none =>
    let old := readMem s.world.mem addr n cas.endness
    let t := s.set cas.oldLo ⟨expd.ty,old⟩
    if cut expd.ty.bits expd.bits = cut expd.ty.bits old then
      t.writes cas.endness addr ⟨expd.ty,(evalAtom s.tmp cas.dataLo).bits⟩
    else t
  | some hi =>
    let addrLo := addr + BitVec.ofNat 64 (casOffsets cas.endness n).1
    let addrHi := addr + BitVec.ofNat 64 (casOffsets cas.endness n).2
    let oldLo := readMem s.world.mem addrLo n cas.endness
    let oldHi := readMem s.world.mem addrHi n cas.endness
    let t := (s.set hi.old ⟨expd.ty,oldHi⟩).set cas.oldLo ⟨expd.ty,oldLo⟩
    if cut expd.ty.bits expd.bits = cut expd.ty.bits oldLo ∧
        cut expd.ty.bits (evalAtom s.tmp hi.expd).bits = cut expd.ty.bits oldHi then
      (t.writes cas.endness addrHi ⟨expd.ty,(evalAtom s.tmp hi.data).bits⟩).writes cas.endness addrLo
        ⟨expd.ty,(evalAtom s.tmp cas.dataLo).bits⟩
    else t

structure Calls (κ σ : Type) where
  call : κ → List Value → World σ → Option (Value × World σ)
  retty : κ → IRType

/- What a temporary gets from a call that is not made: 0b01, repeated. -/
def notCalled (ty : IRType) : Val := ⟨ty,cut ty.bits (BitVec.ofNat 256 (2 ^ 256 / 3))⟩

def argValue (tmp : IRTemp → Val) : IRArg → Value
  | .vecret => 0
  | .atom a => cut (evalAtom tmp a).ty.bits (evalAtom tmp a).bits

def setTmp (s : Machine σ) (t : Option IRTemp) (v : Val) : Machine σ :=
  match t with
  | none => s
  | some t => s.set t v

def doDirty (calls : Calls κ σ) (d : IRDirty κ) (s : Machine σ) : Option (Machine σ) :=
  if isTrue (evalAtom s.tmp d.guard).bits then
    match calls.call d.cee (d.args.map (argValue s.tmp)) s.world with
    | none => none
    | some (v,world) => some (setTmp { s with world := world } d.tmp ⟨calls.retty d.cee,v⟩)
  else some (setTmp s d.tmp (notCalled (calls.retty d.cee)))

/- One statement: where it leaves the block to, if it does. -/
def exec (calls : Calls κ σ) : IRStmt κ → Machine σ → Option (Option Addr × Machine σ)
  | .noOp,s | .iMark _ _,s | .abiHint _ _ _,s | .mbe,s => some (none,s)
  | .put offset data,s => some (none,s.puts offset (evalAtom s.tmp data))
  | .putI descr ix bias data,s =>
    some (none,s.puts (arrayOffset descr (evalAtom s.tmp ix).bits bias) (evalAtom s.tmp data))
  | .wrTmp tmp data,s => some (none,s.set tmp (eval prims s data))
  | .store endness addr data,s =>
    some (none,s.writes endness (addrOf (evalAtom s.tmp addr)) (evalAtom s.tmp data))
  | .storeG g,s =>
    some (none,if isTrue (evalAtom s.tmp g.guard).bits then
      s.writes g.endness (addrOf (evalAtom s.tmp g.addr)) (evalAtom s.tmp g.data) else s)
  | .loadG g,s =>
    some (none,s.set g.dst (if isTrue (evalAtom s.tmp g.guard).bits then
      widen prims g.cvt (readMem s.world.mem (addrOf (evalAtom s.tmp g.addr))
        (sizeofIRType (loadGOp g.cvt).1) g.endness) else evalAtom s.tmp g.alt))
  | .cas details,s => some (none,doCAS s details)
  | .dirty d,s => (doDirty calls d s).map fun t => (none,t)
  | .exit guard dst,s => some (if isTrue (evalAtom s.tmp guard).bits then some dst else none,s)

def execAll (calls : Calls κ σ) : List (IRStmt κ) → Machine σ → Option (Option Addr × Machine σ)
  | [],s => some (none,s)
  | st :: rest,s =>
    match exec prims calls st s with
    | none => none
    | some (some dst,t) => some (some dst,t)
    | some (none,t) => execAll calls rest t

/- A block: where it goes on. -/
def runIRSB (calls : Calls κ σ) (sb : IRSB κ) (s : Machine σ) : Option (Addr × World σ) :=
  (execAll prims calls sb.stmts s).map fun (exit,t) => (exit.getD (addrOf (evalAtom t.tmp sb.next)),t.world)

end

end Autonomizer.VexIR
