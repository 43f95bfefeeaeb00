import Mathlib
import Autonomizer.Propagation

/-! The operations that come to the instrumenter: none that the tool makes for itself, and none
that it has no case for. -/
namespace Autonomizer.Typed
open Instrument Translate VexIR

def Joins : IRType → Prop
  | .i8 | .i16 | .i32 | .i64 | .v128 | .v256 => True
  | _ => False

instance (ty : IRType) : Decidable (Joins ty) :=
  match ty with
  | .i8 | .i16 | .i32 | .i64 | .v128 | .v256 => isTrue trivial
  | .i1 | .i128 | .f16 | .f32 | .f64 | .d32 | .d64 | .d128 | .f128 => isFalse id

def GuestUnop : Unop → Prop
  | .iop1Sto16 | .left _ | .cmpNEZ _ => False
  | _ => True

def GuestBinop : Binop → Prop
  | .expCmpNE .w8 => False
  | _ => True

def GuestTriop : Triop → Prop
  | .addF128 => False
  | _ => True

end Autonomizer.Typed
