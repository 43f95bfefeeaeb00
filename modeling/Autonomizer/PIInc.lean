import Mathlib

/-! The enumerations of PIInc.h and the status codes of ProgIntel.hpp. -/
namespace Autonomizer.PIInc

inductive Status where
  | none | prod | sprod | rprod | train | test | rtest
  deriving DecidableEq, Repr

inductive TypeID where
  | none | c | s | i | l | uc | us | ui | ul | f | d | st | p
  deriving DecidableEq, Repr

inductive NNStg where
  | one | ens
  deriving DecidableEq, Repr

def TypeID.code : TypeID → Int
  | .none => 0
  | .c => 1
  | .s => 2
  | .i => 3
  | .l => 4
  | .uc => 5
  | .us => 6
  | .ui => 7
  | .ul => 8
  | .f => 9
  | .d => 10
  | .st => 11
  | .p => 12

/- (TypeID) of an int; a number outside the enumeration has no meaning here. -/
def TypeID.ofCode (n : Int) : Option TypeID :=
  ([.none,.c,.s,.i,.l,.uc,.us,.ui,.ul,.f,.d,.st,.p] : List TypeID).find? (fun tID => tID.code = n)

theorem ofCode (tID : TypeID) : TypeID.ofCode tID.code = some tID := by cases tID <;> rfl

theorem codeRange (tID : TypeID) : 0 ≤ tID.code ∧ tID.code < 13 := by cases tID <;> decide

end Autonomizer.PIInc
