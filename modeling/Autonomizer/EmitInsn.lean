import Mathlib
import Autonomizer.VexIR

/-! The assertions of TNT_(emit_insn), TNT_(emit_insn1) and TNT_(emit_next), without --smt2. -/
namespace Autonomizer.EmitInsn
open LoadStore ShadowMemory VexIR

def tiMax : Nat := 2100
def riMax : Nat := 240

/- What no report decides: the size of a word of the host, which reports the command line, the
taint and dumpSet let be printed, and whether the disassembler and the debug information
can tell what a printed one asks of them. -/
structure Session where
  uword : Nat
  prints : List Report → Report → Bool
  asmGuestPprint : List Report → Report → Bool
  describeData : List Report → Report → Bool

def tv (log : List Report) (tmp : IRTemp) : ULong :=
  log.foldl (fun value r => match r with
    | .insn (.wrTmp ltmp _) new _ => if ltmp = tmp then new else value
    | _ => value) 0

def isTainted (log : List Report) (tmp : IRTemp) : Bool :=
  log.foldl (fun tainted r => match r with
    | .insn (.wrTmp ltmp _) _ taint => if ltmp = tmp then decide (taint ≠ 0) else tainted
    | _ => tainted) false

def checkReg (reg : Nat) : Bool := reg < riMax

/- It panics on other constants. -/
def extractIRConst64 : IRConst → Option ULong
  | .u1 n => some (if n then 1 else 0)
  | .u8 n => some (n.setWidth 64)
  | .u16 n | .v128 n => some (n.setWidth 64)
  | .u32 n => some (n.setWidth 64)
  | .u64 n | .f64i n => some n
  | .f32i _ | .v256 _ => none

def ixValue (log : List Report) : IRAtom → Option (BitVec 32)
  | .rdTmp ixTmp => if ixTmp < tiMax then some ((tv log ixTmp).setWidth 32) else none
  | .const con => (extractIRConst64 con).map (·.setWidth 32)

/- The offset in bytes is checked against the number of registers. -/
def getGetiPutiReg (log : List Report) (descr : IRRegArray) (ix : IRAtom) (bias : Int) : Option Nat := do
  let value ← ixValue log ix
  let arrayIndex := (value + BitVec.ofInt 32 bias).toNat % descr.nElems
  let reg := (descr.base + arrayIndex * sizeofIRType descr.elemTy) % 2^32
  if checkReg reg then some reg else none

def bookkeeping (s : Session) (log : List Report) : IRStmt Empty → Bool
  | .put offset _ => checkReg (offset / s.uword)
  | .putI descr ix bias _ => (getGetiPutiReg log descr ix bias).any fun reg => checkReg (reg / s.uword)
  | .wrTmp ltmp _ => ltmp < tiMax
  | _ => true

/- Whether print_insn_type calls print_asm. -/
def printsAsm : IRStmt Empty → Bool
  | .wrTmp _ (.load _ _ _) | .wrTmp _ (.ite _ _ _) | .wrTmp _ (.ccall _ _ _) | .store _ _ _ | .exit _ _ => true
  | _ => false

def printInfoFlowTmp : IRAtom → Bool
  | .rdTmp tmp => tmp < tiMax
  | .const _ => true

/- The sources of an assignment. They are printed of a tainted one only, those of a load of
any. -/
def printSources (s : Session) (log : List Report) (described tainted : Bool) (ltmp : IRTemp) : IRExpr → Bool
  | .get offset _ => !tainted || checkReg (offset / s.uword)
  | .getI descr ix bias => !tainted || (getGetiPutiReg log descr ix bias).isSome && printInfoFlowTmp ix
  | .atom a | .unop _ a => !tainted || printInfoFlowTmp a
  | .binop _ arg1 arg2 => !tainted || printInfoFlowTmp arg1 && printInfoFlowTmp arg2
  | .triop _ arg1 arg2 arg3 =>
    !tainted || printInfoFlowTmp arg1 && printInfoFlowTmp arg2 && printInfoFlowTmp arg3
  | .load _ _ (.rdTmp atmp) => atmp < tiMax && described
  | .load _ _ (.const con) => !isTainted log ltmp || (extractIRConst64 con).isSome && described
  | .ccall _ _ args => !tainted || args.all printInfoFlowTmp
  | .ite cond iftrue iffalse =>
    !tainted || printInfoFlowTmp cond && printInfoFlowTmp iftrue && printInfoFlowTmp iffalse

/- A register or a temporary outside its array, and data that are read as a temporary and are
none, are no better than an assertion. -/
def printInfoFlow (s : Session) (log : List Report) (described tainted : Bool) : IRStmt Empty → Bool
  | .put offset data => !tainted || checkReg (offset / s.uword) && printInfoFlowTmp data
  | .putI descr ix bias data =>
    !tainted || (getGetiPutiReg log descr ix bias).isSome && printInfoFlowTmp data && printInfoFlowTmp ix
  | .store _ (.rdTmp atmp) data => atmp < tiMax && described && printInfoFlowTmp data
  | .store _ (.const con) (.rdTmp dtmp) => (extractIRConst64 con).isSome && described && dtmp < tiMax
  | .store _ (.const _) (.const _) => false
  | .exit guard _ => !tainted || printInfoFlowTmp guard
  | .wrTmp ltmp e => ltmp < tiMax && printSources s log described tainted ltmp e
  | _ => true

def printed (s : Session) (log now : List Report) (r : Report) (clone : IRStmt Empty) (taint : ULong) : Bool :=
  !s.prints log r || (!printsAsm clone || s.asmGuestPprint log r) &&
    printInfoFlow s now (s.describeData log r) (taint ≠ 0) clone

/- A report passes the assertions of the helper it is made to. -/
def passes (s : Session) (log : List Report) (r : Report) : Bool :=
  match r with
  | .insn clone _ taint => bookkeeping s log clone && printed s log (log ++ [r]) r clone taint
  | .insn1 clone taint => printed s log log r clone taint
  | .next clone _ _ => !s.prints log r || printInfoFlowTmp clone

/- Every element of the array begins in ri, and the index is a temporary in tv or a number. -/
structure ArrayFits (descr : IRRegArray) (ix : IRAtom) : Prop where
  some_ : 0 < descr.nElems
  elems : ∀ k < descr.nElems, descr.base + k * sizeofIRType descr.elemTy < riMax
  tmp : printInfoFlowTmp ix
  number : ∀ con, ix = .const con → (extractIRConst64 con).isSome

def ExprFits (uword : Nat) : IRExpr → Prop
  | .get offset _ => offset / uword < riMax
  | .getI descr ix _ => ArrayFits descr ix
  | .atom a | .unop _ a => printInfoFlowTmp a
  | .binop _ arg1 arg2 => printInfoFlowTmp arg1 ∧ printInfoFlowTmp arg2
  | .triop _ arg1 arg2 arg3 => printInfoFlowTmp arg1 ∧ printInfoFlowTmp arg2 ∧ printInfoFlowTmp arg3
  | .load _ _ (.rdTmp tmp) => tmp < tiMax
  | .load _ _ (.const con) => (extractIRConst64 con).isSome
  | .ccall _ _ args => ∀ a ∈ args, printInfoFlowTmp a
  | .ite cond iftrue iffalse => printInfoFlowTmp cond ∧ printInfoFlowTmp iftrue ∧ printInfoFlowTmp iffalse

/- A statement whose temporaries and registers are in the arrays of the tool. -/
def Emittable (uword : Nat) : IRStmt Empty → Prop
  | .put offset data => offset / uword < riMax ∧ printInfoFlowTmp data
  | .putI descr ix _ data => ArrayFits descr ix ∧ printInfoFlowTmp data
  | .store _ (.rdTmp atmp) data => atmp < tiMax ∧ printInfoFlowTmp data
  | .store _ (.const con) (.rdTmp dtmp) => (extractIRConst64 con).isSome ∧ dtmp < tiMax
  | .store _ (.const _) (.const _) => False
  | .exit guard _ => printInfoFlowTmp guard
  | .wrTmp ltmp e => ltmp < tiMax ∧ ExprFits uword e
  | _ => True

section
variable {s : Session} {log : List Report}

theorem regFound (log : List Report) {descr : IRRegArray} {ix : IRAtom} (fits : ArrayFits descr ix) (bias : Int) :
    ∃ reg < riMax, getGetiPutiReg log descr ix bias = some reg := by
  obtain ⟨value,known⟩ : ∃ value, ixValue log ix = some value := by
    cases ix with
    | rdTmp tmp => exact ⟨_,if_pos (of_decide_eq_true fits.tmp)⟩
    | const con =>
      obtain ⟨n,same⟩ := Option.isSome_iff_exists.mp (fits.number con rfl)
      exact ⟨n.setWidth 32,by rw [ixValue,same]; rfl⟩
  have below := fits.elems _ (Nat.mod_lt (value + BitVec.ofInt 32 bias).toNat fits.some_)
  have small := Nat.mod_eq_of_lt (below.trans (by decide : riMax < 2^32))
  refine ⟨_,below,?_⟩
  simp only [getGetiPutiReg,known,small,checkReg,decide_eq_true below,bind,Option.bind_some,if_true]

theorem wordBelow {reg : Nat} (below : reg < riMax) (n : Nat) : checkReg (reg / n) = true :=
  decide_eq_true (Nat.lt_of_le_of_lt (Nat.div_le_self reg n) below)

theorem booked {clone : IRStmt Empty} (fits : Emittable s.uword clone) : bookkeeping s log clone = true := by
  cases clone with
  | put offset data => exact decide_eq_true fits.1
  | putI descr ix bias data =>
    obtain ⟨reg,below,found⟩ := regFound log fits.1 bias
    rw [bookkeeping,found]
    exact wordBelow below _
  | wrTmp ltmp e => exact decide_eq_true fits.1
  | _ => rfl

theorem sourcesPrinted {e : IRExpr} (fits : ExprFits s.uword e) (tainted : Bool) (ltmp : IRTemp) :
    printSources s log true tainted ltmp e = true := by
  cases e with
  | get offset ty => exact Bool.or_eq_true_iff.mpr (.inr (decide_eq_true fits))
  | getI descr ix bias =>
    obtain ⟨reg,_,found⟩ := regFound log fits bias
    simp [printSources,found,show printInfoFlowTmp ix = true from fits.tmp]
  | atom a | unop op a => exact Bool.or_eq_true_iff.mpr (.inr fits)
  | binop op arg1 arg2 => simp [printSources,fits.1,fits.2]
  | triop op arg1 arg2 arg3 => simp [printSources,fits.1,fits.2.1,fits.2.2]
  | load endness ty addr =>
    cases addr with
    | rdTmp tmp => simp [printSources,show tmp < tiMax from fits]
    | const con => simp [printSources,show (extractIRConst64 con).isSome = true from fits]
  | ccall cee retty args => exact Bool.or_eq_true_iff.mpr (.inr (List.all_eq_true.mpr fits))
  | ite cond iftrue iffalse => simp [printSources,fits.1,fits.2.1,fits.2.2]

theorem flowPrinted {clone : IRStmt Empty} (fits : Emittable s.uword clone) (tainted : Bool) :
    printInfoFlow s log true tainted clone = true := by
  cases clone with
  | put offset data => simp [printInfoFlow,checkReg,fits.1,fits.2]
  | putI descr ix bias data =>
    obtain ⟨reg,_,found⟩ := regFound log fits.1 bias
    simp [printInfoFlow,found,fits.2,show printInfoFlowTmp ix = true from fits.1.tmp]
  | store endness addr data =>
    cases addr with
    | rdTmp atmp => simp [printInfoFlow,fits.1,fits.2]
    | const con =>
      cases data with
      | rdTmp dtmp => simp [printInfoFlow,fits.1,fits.2]
      | const _ => exact fits.elim
  | exit guard dst => exact Bool.or_eq_true_iff.mpr (.inr fits)
  | wrTmp ltmp e => exact Bool.and_eq_true_iff.mpr ⟨decide_eq_true fits.1,sourcesPrinted fits.2 tainted ltmp⟩
  | _ => rfl

/- What is printed of a report can be told. -/
def Tellable (s : Session) : Prop := ∀ log r, s.asmGuestPprint log r = true ∧ s.describeData log r = true

theorem passesFitting (tellable : Tellable s) {clone : IRStmt Empty} (fits : Emittable s.uword clone)
    (value taint : ULong) :
    passes s log (.insn clone value taint) = true ∧ passes s log (.insn1 clone taint) = true := by
  have printed_ (now : List Report) (r : Report) : printed s log now r clone taint = true := by
    simp [printed,(tellable log r).1,(tellable log r).2,flowPrinted fits]
  exact ⟨Bool.and_eq_true_iff.mpr ⟨booked fits,printed_ _ _⟩,printed_ _ _⟩

theorem passesNext {a : IRAtom} (fits : printInfoFlowTmp a = true) (value taint : ULong) :
    passes s log (.next a value taint) = true := Bool.or_eq_true_iff.mpr (.inr fits)

end

end Autonomizer.EmitInsn
