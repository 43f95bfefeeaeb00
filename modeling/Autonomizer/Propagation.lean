import Mathlib
import Autonomizer.Instrument

/-! What the taint of an operation is: which bits of its result are tainted, by those of its
operands and by what these are. -/
namespace Autonomizer.Propagation
open Bits LoadStore ShadowMemory ShadowRuns Spans Translate Instrument VexIR

/- All of the result, if any of the operand: one bit of a bit is left as it is. -/
def castV (src dst : IRType) (v : Value) : Value :=
  if src = .i1 ∧ dst = .i1 then v else pcast src.bits dst.bits v

def lazyV (dst : IRType) (operands : List Val) : Value :=
  if ∀ v ∈ operands, cut v.ty.bits v.bits = 0 then 0 else ones dst.bits

def leftV (w : Width) (vx vy : Value) : Value := left w.bits (uifU w.bits vx vy)

/- Known to differ if a bit that is known does. -/
def equalV (w : Width) (x y vx vy : Value) : Value :=
  let ty := widthTy w
  let v := uifU w.bits vx vy
  let vec := cut w.bits (v ||| cut w.bits (~~~cut w.bits (x ^^^ y)))
  castV ty .i1 (difD w.bits (castV ty ty v)
    (castV .i1 ty (flag (cut w.bits vec = cut w.bits (ones w.bits)))))

def cmpV (w : Width) (vx vy : Value) : Value := castV (widthTy w) .i1 (uifU w.bits vx vy)

def andV (n : Nat) (x y vx vy : Value) : Value :=
  difD n (uifU n vx vy) (difD n (cut n (x ||| vx)) (cut n (y ||| vy)))

def orV (n : Nat) (x y vx vy : Value) : Value :=
  difD n (uifU n vx vy) (difD n (cut n (cut n (~~~x) ||| vx)) (cut n (cut n (~~~y) ||| vy)))

def mullV (w : Width) (vx vy : Value) : Value :=
  concat w.bits (castV (widthTy w) (widthTy w) (leftV w vx vy)) (leftV w vx vy)

/- Against a literal zero, the bit for less is the sign. -/
def ordV (w : Word) (zero : Bool) (vx vy : Value) : Value :=
  let n := w.ty.bits
  if zero then
    cut n (cut n (castV w.ty w.ty vx &&& 6) ||| cut n ((cut n vx >>> (n - 1)) <<< 3))
  else cut n (castV w.ty w.ty (uifU n vx vy) &&& 14)

section
variable (prims : Prims) (env : Setting)

def vbitsUnop (op : Unop) (x v : Value) : Value :=
  match op with
  | .f32toF64 | .i32StoF64 | .i32UtoF64 | .negF64 | .absF64 | .clz _ | .negF32 | .absF32 | .cmpwNEZ _ =>
    castV (shadowTypeV op.type.2) (shadowTypeV op.type.1) v
  | .ctz w => castV w.ty w.ty (difD w.ty.bits v (cut w.ty.bits (x ^^^ cut w.ty.bits (x - 1))))
  | .reinterpF64asI64 | .reinterpI64asF64 | .reinterpI32asF32 | .reinterpF32asI32 | .notV _ | .not _ | .not1 => v
  | op => op.eval prims v

/- `zero` is whether the second operand is a literal zero. -/
def vbitsBinop (op : Binop) (zero : Bool) (x y vx vy : Value) : Value :=
  match op with
  | .add w =>
    if (w = .w32 ∨ w = .w64) ∧ (env.bogusLiterals ∨ env.useLLVMworkarounds) then sumUnknown w.bits vx vy x y
    else leftV w vx vy
  | .sub w =>
    if (w = .w32 ∨ w = .w64) ∧ env.bogusLiterals then differenceUnknown w.bits vx vy x y else leftV w vx vy
  | .mul w => leftV w vx vy
  | .and w => andV w.bits x y vx vy
  | .andV v => andV v.ty.bits x y vx vy
  | .or w => orV w.bits x y vx vy
  | .orV v => orV v.ty.bits x y vx vy
  | .xor w => uifU w.bits vx vy
  | .xorV v => uifU v.ty.bits vx vy
  | .shl w | .shr w | .sar w => uifU w.bits (op.eval prims vx y) (castV .i8 (widthTy w) vy)
  | .cmpEQ w | .cmpNE w =>
    if (w = .w32 ∨ w = .w64) ∧ env.bogusLiterals then equalV w x y vx vy else cmpV w vx vy
  | .expCmpNE w => equalV w x y vx vy
  | .casCmpEQ _ | .casCmpNE _ => 0
  | .cmpLT w _ | .cmpLE w _ => cmpV w.width vx vy
  | .cmpORD w syned => ordV w (syned && zero) vx vy
  | .mull w _ => mullV w vx vy
  | .divModS64to64 => mullV .w64 vx vy
  | .iop8HLto16 | .iop16HLto32 | .iop32HLto64 | .iop64HLto128 | .iop64HLtoV128 | .v128HLtoV256 | .interleaveHI64x2 =>
    op.eval prims vx vy
  | op => lazyV (shadowTypeV op.type.1) [⟨shadowTypeV op.type.2.1,vx⟩,⟨shadowTypeV op.type.2.2,vy⟩]

/- It is looked for in one comparison only. -/
def literalZero : Binop → IRAtom → Bool
  | .cmpORD w _,a => isZero w a
  | _,_ => false

def vbitsTriop (op : Triop) (vx vy vz : Value) : Value :=
  lazyV (shadowTypeV op.type.1)
    [⟨shadowTypeV op.type.2.1,vx⟩,⟨shadowTypeV op.type.2.2.1,vy⟩,⟨shadowTypeV op.type.2.2.2,vz⟩]

end

def reportOf (clone : IRStmt Empty) (d : Val) (v : Value) : Report :=
  match d.ty with
  | .i1 | .i8 | .i16 | .i32 | .i64 =>
    .insn clone ((cut d.ty.bits d.bits).setWidth 64) ((cut d.ty.bits v).setWidth 64)
  | _ => .insn1 clone ((castV (shadowTypeV d.ty) .i64 v).setWidth 64)

end Autonomizer.Propagation
