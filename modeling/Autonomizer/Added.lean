import Mathlib
import Autonomizer.Instrument
import Autonomizer.Weaving

/-! What the tool adds to a block: assignments to temporaries of its own, writes above the state
of the guest, and calls of its helpers, between the statements of the block in their order. -/
namespace Autonomizer.Added
open Bits Instrument LoadStore ShadowRuns Total Translate VexIR Weaving

/- Where the temporaries of a block end, and the state of the guest; and what the tool is told
of. -/
structure Bounds where
  temps : Nat
  state : Nat
  told : IRStmt Empty → Prop
  toldNext : IRAtom → Prop

/- How many arguments a helper is called with, and of what the tool is told. -/
def Takes (b : Bounds) : Helper → Nat → Prop
  | .helpercLOADV _ _,n => 0 < n
  | .helpercSTOREV _ _,n => n = 2
  | .emitInsn clone,n => n = 2 ∧ b.told clone
  | .emitInsn1 clone,n => n = 1 ∧ b.told clone
  | .emitNext clone,n => n = 2 ∧ b.toldNext clone

inductive Own (b : Bounds) : IRStmt Helper → Prop where
  | wrTmp {tmp data} (new : b.temps ≤ tmp) : Own b (.wrTmp tmp data)
  | put {offset data} (above : b.state ≤ offset) : Own b (.put offset data)
  | putI {descr ix bias data} (above : b.state ≤ descr.base) : Own b (.putI descr ix bias data)
  | dirty {d} (takes : Takes b d.cee d.args.length) (new : ∀ t ∈ d.tmp, b.temps ≤ t) : Own b (.dirty d)

structure Apart (b : Bounds) (mce : MCEnv) : Prop where
  temps : b.temps ≤ mce.tyenv.length
  shadows : ∀ ent ∈ mce.tmpMap, ∀ t ∈ ent.shadowV, b.temps ≤ t
  state : b.state ≤ mce.setting.totalSizeB

section
variable {α β : Type} {b : Bounds}

/- The program writes these statements of the block, in their order, and own ones. -/
def Copies (b : Bounds) (orig : List (IRStmt Empty)) (p : Build α) (Q : α → Prop) : Prop :=
  Weaves (Own b) IRStmt.copy MCEnv.stmts (Apart b) orig p Q

class Adds (b : Bounds) (p : Build α) : Prop where
  adds : Copies b [] p (fun _ => True)

variable {p : Build α} {f : α → Build β}

theorem addsAfter {Q : α → Prop} (first : Copies b [] p Q) (next : ∀ a, Q a → Adds b (f a)) : Adds b (p >>= f) where
  adds := weavesOwn first fun a here => (next a here).adds

theorem addsThen (first : Adds b p) (next : ∀ a, Adds b (f a)) : Adds b (p >>= f) :=
  addsAfter first.adds fun a _ => next a

instance addsBind [first : Adds b p] [next : ∀ a, Adds b (f a)] : Adds b (p >>= f) := addsThen first next

instance addsPure {a : α} : Adds b (pure a) where
  adds := weavesPure trivial

instance addsHalt : Adds b (halt : Build α) where
  adds := weavesHalt

instance addsGet : Adds b (get : Build MCEnv) where
  adds := weavesMono weavesGet fun _ _ => trivial

instance addsAssert {P : Prop} [Decidable P] : Adds b (assert P) where
  adds := weavesMono weavesAssert fun _ _ => trivial

instance addsMap {g : α → β} [wrote : Adds b p] : Adds b (g <$> p) := addsThen wrote fun _ => addsPure

instance addsIte {P : Prop} [Decidable P] {q : Build α} [yes : Adds b p] [no : Adds b q] :
    Adds b (if P then p else q) := by
  split
  · exact yes
  · exact no

theorem demands {o : Option α} : Copies b [] (demand o) (fun a => o = some a) := by
  cases o with
  | none => exact weavesHalt
  | some a => exact weavesPure rfl

instance addsDemand {o : Option α} : Adds b (demand o) where
  adds := weavesMono demands fun _ _ => trivial

end

section
variable {b : Bounds}

theorem apartWrite {mce : MCEnv} {st : IRStmt Helper} (apart : Apart b mce) :
    Apart b { mce with stmts := mce.stmts ++ [st] } := ⟨apart.temps,apart.shadows,apart.state⟩

theorem writesOwn {st : IRStmt Helper} (own : Own b st) : Adds b (stmt st) where
  adds := weavesWrite (fun _ => apartWrite) (fun _ => rfl) (.own own .nil)

theorem copiesStmt (st : IRStmt Empty) : Copies b [st] (stmt st.copy) (fun _ => True) :=
  weavesWrite (fun _ => apartWrite) (fun _ => rfl) (.copied .nil)

theorem newTemps {ty : IRType} {kind : TempKind} : Copies b [] (newTemp ty kind) (b.temps ≤ ·) := by
  refine weavesOwn weavesGet fun mce apart => ?_
  refine weavesOwn (weavesModify ?_ fun _ => rfl) fun _ _ => ?_
  · intro mce apart
    refine ⟨?_,fun ent inside => ?_,apart.state⟩
    · rw [List.length_append]
      exact Nat.le_add_right_of_le apart.temps
    · rcases List.mem_append.mp inside with older | new
      · exact apart.shadows ent older
      · cases List.mem_singleton.mp new
        intro t none_
        cases none_
  exact weavesOwn weavesAssert fun _ _ => weavesPure apart.temps

instance addsTypeOfTemp {t : IRTemp} : Adds b (typeOfTemp t) := by
  unfold typeOfTemp
  infer_instance

theorem findsShadow {orig : IRTemp} : Copies b [] (findShadowTmpV orig) (b.temps ≤ ·) := by
  unfold findShadowTmpV
  refine weavesOwn weavesGet fun mce apart => ?_
  refine weavesOwn demands fun ent found => ?_
  refine weavesOwn weavesAssert fun _ _ => ?_
  cases shadow : ent.shadowV with
  | some tmpV => exact weavesPure (apart.shadows ent (List.mem_of_getElem? found) tmpV shadow)
  | none =>
    refine weavesOwn addsTypeOfTemp.adds fun ty _ => ?_
    refine weavesOwn newTemps fun tmpV new => ?_
    refine weavesOwn (weavesModify ?_ fun _ => rfl) fun _ _ => weavesPure new
    intro mce apart
    refine ⟨apart.temps,fun ent inside t there => ?_,apart.state⟩
    rcases List.mem_or_eq_of_mem_set inside with older | rfl
    · exact apart.shadows ent older t there
    · cases there
      exact new

instance addsTypeOf {e : IRExpr} : Adds b (typeOf e) := by
  unfold typeOf
  infer_instance

instance addsAssertOriginal {a : IRAtom} : Adds b (assertOriginal a) := by
  unfold assertOriginal
  infer_instance

instance addsAssertShadow {a : IRAtom} : Adds b (assertShadow a) := by
  unfold assertShadow
  infer_instance

theorem addsAssign {t : IRTemp} {e : IRExpr} (new : b.temps ≤ t) : Adds b (assign t e) := writesOwn (.wrTmp new)

instance addsAssignNew {cat : Cat} {ty : IRType} {e : IRExpr} : Adds b (assignNew cat ty e) := by
  unfold assignNew
  refine addsThen addsTypeOf fun _ => ?_
  refine addsThen addsAssert fun _ => ?_
  refine addsAfter newTemps fun t new => ?_
  exact addsThen (addsAssign new) fun _ => addsPure

instance addsDefinedOfType {ty : IRType} : Adds b (definedOfType ty) := by
  unfold definedOfType
  split <;> infer_instance

instance addsDefinedAtom {ty : IRType} : Adds b (definedAtom ty) := by
  unfold definedAtom
  refine addsThen addsDefinedOfType fun e => ?_
  split <;> infer_instance

instance addsMkBinop {ty : IRType} {op : Binop} {a1 a2 : IRAtom} : Adds b (mkBinop ty op a1 a2) := by
  unfold mkBinop
  infer_instance

instance addsMkUnop {ty : IRType} {op : Unop} {a1 : IRAtom} : Adds b (mkUnop ty op a1) := by
  unfold mkUnop
  infer_instance

instance addsMkUifU {vty : IRType} {a1 a2 : IRAtom} : Adds b (mkUifU vty a1 a2) := by
  unfold mkUifU
  split
  case h_7 => exact addsHalt
  all_goals exact addsMkBinop

instance addsAssertImproves {data vbits : IRAtom} : Adds b (assertImproves data vbits) := by
  unfold assertImproves
  infer_instance

instance addsMkImproveAND {ty : IRType} {opOR : Binop} {data vbits : IRAtom} :
    Adds b (mkImproveAND ty opOR data vbits) := by
  unfold mkImproveAND
  infer_instance

instance addsMkImproveOR {ty : IRType} {opOR : Binop} {opNOT : Unop} {data vbits : IRAtom} :
    Adds b (mkImproveOR ty opOR opNOT data vbits) := by
  unfold mkImproveOR
  infer_instance

instance addsCollapse {ty : IRType} {vbits : IRAtom} : Adds b (collapse ty vbits) := by
  unfold collapse
  split <;> infer_instance

instance addsSpread {ty : IRType} {tmp : IRAtom} : Adds b (spread ty tmp) := by
  unfold spread
  split <;> infer_instance

instance addsMkPCastTo {ty : IRType} {vbits : IRAtom} : Adds b (mkPCastTo ty vbits) := by
  unfold mkPCastTo
  refine addsThen addsAssertShadow fun _ => ?_
  refine addsThen addsTypeOf fun srcTy => ?_
  split
  case h_7 => exact addsThen addsAssignNew fun _ => addsThen addsMkBinop fun _ => addsBind
  all_goals infer_instance

instance addsAssertPair {vxx vyy xx yy : IRAtom} : Adds b (assertPair vxx vyy xx yy) := by
  unfold assertPair
  infer_instance

instance addsCmpWidth {ty : IRType} : Adds b (cmpWidth ty) := by
  unfold cmpWidth
  split <;> infer_instance

instance addsExpensiveCmp {ty : IRType} {vxx vyy xx yy : IRAtom} :
    Adds b (expensiveCmpEQorNE ty vxx vyy xx yy) := by
  unfold expensiveCmpEQorNE
  refine addsThen addsAssertPair fun _ => addsThen addsCmpWidth fun w => ?_
  refine addsThen addsAssignNew fun uifu => addsThen addsMkPCastTo fun naive => ?_
  infer_instance

instance addsDoCmpORD {w : Word} {syned : Bool} {xxhash yyhash xx yy : IRAtom} :
    Adds b (doCmpORD w syned xxhash yyhash xx yy) := by
  unfold doCmpORD
  infer_instance

instance addsMkLazy2 {ty : IRType} {va1 va2 : IRAtom} : Adds b (mkLazy2 ty va1 va2) := by
  unfold mkLazy2
  refine addsThen addsTypeOf fun t1 => addsThen addsTypeOf fun t2 => ?_
  refine addsThen addsAssertShadow fun _ => addsThen addsAssertShadow fun _ => ?_
  split <;> infer_instance

instance addsMkLazy3 {ty : IRType} {va1 va2 va3 : IRAtom} : Adds b (mkLazy3 ty va1 va2 va3) := by
  unfold mkLazy3
  refine addsThen addsTypeOf fun t1 => addsThen addsTypeOf fun t2 => addsThen addsTypeOf fun t3 => ?_
  refine addsThen addsAssertShadow fun _ => addsThen addsAssertShadow fun _ => addsThen addsAssertShadow fun _ => ?_
  split <;> infer_instance

instance addsAtom2vbits {a : IRAtom} : Adds b (atom2vbits a) := by
  cases a with
  | rdTmp t => exact addsAfter findsShadow fun _ _ => addsPure
  | const con => exact addsDefinedAtom

instance addsMergeTy64 {cee : IRCallee} {args : List IRAtom} {i : Nat} : Adds b (mergeTy64 cee args i) := by
  induction args generalizing i with
  | nil => exact addsPure
  | cons a rest ih =>
    unfold mergeTy64
    infer_instance

instance addsMergeUifU {w : Word} {a1 a2 : IRAtom} : Adds b (mergeUifU w a1 a2) := by
  cases w <;> exact addsMkBinop

instance addsMergeArgs {cee : IRCallee} {w : Word} {args : List IRAtom} {i : Nat} {curr : IRAtom} :
    Adds b (mergeArgs cee w args i curr) := by
  induction args generalizing i curr with
  | nil => exact addsPure
  | cons a rest ih =>
    unfold mergeArgs
    infer_instance

instance addsMkLazyN {args : List IRAtom} {ty : IRType} {cee : IRCallee} : Adds b (mkLazyN args ty cee) := by
  unfold mkLazyN
  infer_instance

instance addsSumWidth {ty : IRType} : Adds b (sumWidth ty) := by
  unfold sumWidth
  split <;> infer_instance

instance addsExpensiveSum {add : Bool} {ty : IRType} {qaa qbb aa bb : IRAtom} :
    Adds b (expensiveAddSub add ty qaa qbb aa bb) := by
  unfold expensiveAddSub
  refine addsThen addsAssertPair fun _ => addsThen addsSumWidth fun w => ?_
  refine addsThen addsAssignNew fun notA => addsThen addsAssignNew fun aMin => ?_
  refine addsThen addsAssignNew fun notB => addsThen addsAssignNew fun bMin => ?_
  infer_instance

instance addsTrailing {w : Word} {atom vatom : IRAtom} : Adds b (expensiveCountTrailingZeroes w atom vatom) := by
  unfold expensiveCountTrailingZeroes
  infer_instance

instance addsScalarShift {ty : IRType} {op : Binop} {qaa qbb aa bb : IRAtom} :
    Adds b (scalarShift ty op qaa qbb aa bb) := by
  unfold scalarShift
  infer_instance

theorem addsDoAndOr {ty : IRType} {uifu difd improve : IRAtom → IRAtom → Build IRAtom} {va1 va2 a1 a2 : IRAtom}
    (uifus : ∀ x y, Adds b (uifu x y)) (difds : ∀ x y, Adds b (difd x y)) (improves : ∀ x y, Adds b (improve x y)) :
    Adds b (doAndOr ty uifu difd improve va1 va2 a1 a2) := by
  unfold doAndOr
  infer_instance

instance addsCheapAddSub {w : Width} {va1 va2 : IRAtom} : Adds b (cheapAddSub w va1 va2) := by
  cases w <;> exact addsThen addsMkBinop fun _ => addsMkUnop

instance addsCheapCmp {ty : IRType} {va1 va2 : IRAtom} : Adds b (cheapCmp ty va1 va2) := by
  unfold cheapCmp
  infer_instance

instance addsMull {w : Width} {op : Binop} {va1 va2 : IRAtom} : Adds b (mullVbits w op va1 va2) := by
  unfold mullVbits
  infer_instance

instance addsBinop {op : Binop} {a1 a2 : IRAtom} : Adds b (expr2vbitsBinop op a1 a2) := by
  unfold expr2vbitsBinop
  refine addsThen addsAtom2vbits fun va1 => addsThen addsAtom2vbits fun va2 => ?_
  refine addsThen addsAssertPair fun _ => addsThen addsGet fun mce => ?_
  have uifus (ty : IRType) (op : Binop) (x y : IRAtom) : Adds b (mkBinop ty op x y) := addsMkBinop
  have ands (ty : IRType) (op : Binop) (x y : IRAtom) : Adds b (mkImproveAND ty op x y) := addsMkImproveAND
  have ors (ty : IRType) (op : Binop) (no : Unop) (x y : IRAtom) : Adds b (mkImproveOR ty op no x y) :=
    addsMkImproveOR
  cases op with
  | and w => cases w <;> exact addsThen (addsDoAndOr (uifus _ _) (uifus _ _) (ands _ _)) fun _ => addsPure
  | or w => cases w <;> exact addsThen (addsDoAndOr (uifus _ _) (uifus _ _) (ors _ _ _)) fun _ => addsPure
  | andV v => cases v <;> exact addsThen (addsDoAndOr (uifus _ _) (uifus _ _) (ands _ _)) fun _ => addsPure
  | orV v => cases v <;> exact addsThen (addsDoAndOr (uifus _ _) (uifus _ _) (ors _ _ _)) fun _ => addsPure
  | xor w => cases w <;> exact addsThen addsMkBinop fun _ => addsPure
  | xorV v => cases v <;> exact addsThen addsMkBinop fun _ => addsPure
  | add w | sub w | cmpEQ w | cmpNE w | expCmpNE w | shl w | shr w | sar w | mull w _ => cases w <;> infer_instance
  | div w _ | divE w _ => cases w <;> infer_instance
  | _ => infer_instance

instance addsUnop {op : Unop} {a : IRAtom} : Adds b (expr2vbitsUnop op a) := by
  unfold expr2vbitsUnop
  refine addsThen addsAtom2vbits fun va => addsThen addsAssertOriginal fun _ => ?_
  split <;> infer_instance

instance addsTriop {op : Triop} {a1 a2 a3 : IRAtom} : Adds b (expr2vbitsTriop op a1 a2 a3) := by
  unfold expr2vbitsTriop
  refine addsThen addsAtom2vbits fun va1 => addsThen addsAtom2vbits fun va2 => ?_
  refine addsThen addsAtom2vbits fun va3 => addsThen addsAssertPair fun _ => ?_
  refine addsThen addsAssertShadow fun _ => addsThen addsAssertOriginal fun _ => addsThen addsAssert fun _ => ?_
  split <;> infer_instance

instance addsHostWord : Adds b hostWord := by
  unfold hostWord
  infer_instance

instance addsWithBias {ty : IRType} {addr : IRAtom} {bias : Nat} : Adds b (withBias ty addr bias) := addsAssignNew

instance addsBiased {addr : IRAtom} {bias : Nat} : Adds b (biased addr bias) := by
  unfold biased
  infer_instance

instance addsLoadWRK {endness : IREndness} {ty : IRType} {addr : IRAtom} {bias : Nat} {guard : Option IRAtom} :
    Adds b (expr2vbitsLoadWRK endness ty addr bias guard) := by
  unfold expr2vbitsLoadWRK
  refine addsThen addsAssertOriginal fun _ => ?_
  dsimp only
  split
  · exact addsHalt
  · rename_i size _
    refine addsThen addsBiased fun addrAct => addsAfter newTemps fun t new => ?_
    refine addsThen (writesOwn (.dirty ?_ fun u same => ?_)) fun _ => addsPure
    · show 0 < List.length _
      split <;> exact Nat.succ_pos _
    · cases same
      exact new

instance addsLoad {endness : IREndness} {ty : IRType} {addr : IRAtom} {bias : Nat} {guard : Option IRAtom} :
    Adds b (expr2vbitsLoad endness ty addr bias guard) := by
  unfold expr2vbitsLoad
  split <;> infer_instance

instance addsWideType {ty : IRType} {op : Option Unop} : Adds b (wideType ty op) := by
  unfold wideType
  split <;> infer_instance

instance addsWidenV {ty : IRType} {loaded : IRAtom} {op : Option Unop} : Adds b (widenV ty loaded op) := by
  cases op <;> unfold widenV <;> infer_instance

instance addsLoadGuarded {endness : IREndness} {ty : IRType} {addr : IRAtom} {bias : Nat} {guard : Option IRAtom}
    {op : Option Unop} {valt : IRAtom} : Adds b (expr2vbitsLoadGuardedGeneral endness ty addr bias guard op valt) := by
  unfold expr2vbitsLoadGuardedGeneral
  infer_instance

instance addsITE {cond iftrue iffalse : IRAtom} : Adds b (expr2vbitsITE cond iftrue iffalse) := by
  unfold expr2vbitsITE
  refine addsThen addsAssertOriginal fun _ => addsThen addsAssertOriginal fun _ => ?_
  refine addsThen addsAssertOriginal fun _ => addsThen addsAtom2vbits fun vbitsC => ?_
  infer_instance

instance addsShadowGET {offset : Nat} {ty : IRType} : Adds b (shadowGET offset ty) := by
  unfold shadowGET
  infer_instance

instance addsShadowGETI {descr : IRRegArray} {ix : IRAtom} {bias : Int} : Adds b (shadowGETI descr ix bias) := by
  unfold shadowGETI
  infer_instance

instance addsExpr {e : IRExpr} : Adds b (expr2vbits e) := by
  cases e <;> unfold expr2vbits <;> infer_instance

instance addsZwiden {cat : Cat} {ty : IRType} {a : IRAtom} : Adds b (zwiden cat ty a) := by
  unfold zwiden
  refine addsThen addsTypeOf fun tyA => ?_
  split <;> infer_instance

instance addsZwidenToHostWord {va : IRAtom} : Adds b (zwidenToHostWord va) := by
  unfold zwidenToHostWord
  infer_instance

instance addsZwidenToHostWordC {a : IRAtom} : Adds b (zwidenToHostWordC a) := by
  unfold zwidenToHostWordC
  infer_instance

theorem addsCall {cee : Helper} {args : List IRAtom} {guard : Option IRAtom} (takes : Takes b cee args.length) :
    Adds b (callHelper cee args guard) := by
  refine writesOwn (.dirty ?_ fun t same => ?_)
  · rw [List.length_map]
    exact takes
  · cases same

class Told (b : Bounds) (clone : IRStmt Empty) : Prop where
  told : b.told clone

instance addsEmitWhole {clone : IRStmt Empty} [tells : Told b clone] {data vdata : IRAtom} :
    Adds b (emitWhole clone data vdata) := by
  unfold emitWhole
  exact addsThen addsZwidenToHostWordC fun _ => addsThen addsZwidenToHostWord fun _ => addsCall ⟨rfl,tells.told⟩

instance addsEmitTaint {clone : IRStmt Empty} [tells : Told b clone] {ty : IRType} {vdata : IRAtom} :
    Adds b (emitTaint clone ty vdata) := by
  unfold emitTaint
  exact addsThen addsMkPCastTo fun _ => addsCall ⟨rfl,tells.told⟩

instance addsEMIT {clone : IRStmt Empty} [Told b clone] {data : IRAtom} : Adds b (createDirtyEMIT clone data) := by
  unfold createDirtyEMIT
  refine addsThen addsAtom2vbits fun vdata => addsThen addsHostWord fun tyAddr => ?_
  refine addsThen addsAssertShadow fun _ => addsThen addsTypeOf fun ty => ?_
  cases ty <;> infer_instance

theorem addsNEXT {next : IRAtom} (tells : b.toldNext next) : Adds b (createDirtyNEXT next) := by
  cases next with
  | const con => exact addsPure
  | rdTmp t => exact addsThen addsAtom2vbits fun _ => addsCall ⟨rfl,tells⟩

theorem copiesWRTMP {clone : IRStmt Empty} [Told b clone] {tmp : IRTemp} {e : IRExpr} :
    Copies b [.wrTmp tmp e] (doShadowWRTMP clone tmp e) (fun _ => True) := by
  refine weavesThen (copiesStmt (.wrTmp tmp e)) fun _ _ => ?_
  refine weavesOwn addsExpr.adds fun vexpr _ => weavesOwn findsShadow fun tmpV new => ?_
  exact weavesOwn (addsAssign new).adds fun _ _ => addsEMIT.adds

instance addsPUT {clone : IRStmt Empty} [Told b clone] {offset : Nat} {a : IRAtom} : Adds b (doShadowPUT clone offset a) := by
  unfold doShadowPUT
  refine addsThen addsAssertOriginal fun _ => addsThen addsAtom2vbits fun va => ?_
  refine addsThen addsTypeOf fun ty => addsThen addsAssert fun _ => ?_
  refine addsAfter weavesGet fun mce apart => ?_
  exact addsThen (writesOwn (.put (Nat.le_add_left_of_le apart.state))) fun _ => addsEMIT

instance addsPUTI {clone : IRStmt Empty} [Told b clone] {descr : IRRegArray} {ix : IRAtom} {bias : Int} {a : IRAtom} :
    Adds b (doShadowPUTI clone descr ix bias a) := by
  unfold doShadowPUTI
  refine addsThen addsAssertOriginal fun _ => addsThen addsAtom2vbits fun va => addsThen addsAssert fun _ => ?_
  refine addsThen addsAssert fun _ => addsThen addsAssertOriginal fun _ => addsThen addsEMIT fun _ => ?_
  refine addsAfter weavesGet fun mce apart => ?_
  exact writesOwn (.putI (Nat.le_add_left_of_le apart.state))

theorem addsStoreLanes {endness : IREndness} {guard : Option IRAtom} {stores : List (IRAtom × IRAtom)} :
    Adds b (storeLanes endness guard stores) := by
  induction stores with
  | nil => exact addsPure
  | cons store rest ih => exact addsThen (addsCall rfl) fun _ => ih

theorem addsLanes {ty : IRType} {addr : IRAtom} {bias : Nat} {vdata : IRAtom} {lanes : List (Nat × Unop)} :
    Adds b (laneStores ty addr bias vdata lanes) := by
  induction lanes with
  | nil => exact addsPure
  | cons lane rest ih =>
    refine addsThen addsWithBias fun addrAct => addsThen addsAssignNew fun v => ?_
    exact addsThen ih fun _ => addsPure

instance addsStoredVbits {bias : Nat} {what : Stored} : Adds b (storedVbits bias what) := by
  cases what <;> unfold storedVbits <;> infer_instance

instance addsAssertGuard {guard : Option IRAtom} : Adds b (assertGuard guard) := by
  cases guard <;> unfold assertGuard <;> infer_instance

def ToldStore (b : Bounds) (clone : Option (IRStmt Empty)) (endness : IREndness) (addr : IRAtom) : Stored → Prop
  | .data data => b.told (clone.getD (.store endness addr data))
  | .vdata _ => True

theorem addsStoreEmits {clone : Option (IRStmt Empty)} {endness : IREndness} {addr : IRAtom} {what : Stored}
    (tells : ToldStore b clone endness addr what) : Adds b (storeEmits clone endness addr what) := by
  cases what with
  | data data =>
    have told : Told b (clone.getD (.store endness addr data)) := ⟨tells⟩
    exact addsEMIT
  | vdata vdata => exact addsPure

instance addsHostVbits {ty : IRType} {vdata : IRAtom} : Adds b (hostVbits ty vdata) := by
  unfold hostVbits
  infer_instance

theorem addsStore {clone : Option (IRStmt Empty)} {endness : IREndness} {addr : IRAtom} {bias : Nat} {what : Stored}
    {guard : Option IRAtom} (tells : ToldStore b clone endness addr what) :
    Adds b (doShadowStore clone endness addr bias what guard) := by
  unfold doShadowStore
  refine addsThen addsHostWord fun tyAddr => addsThen addsStoredVbits fun vdata => ?_
  refine addsThen addsAssertOriginal fun _ => addsThen addsAssertShadow fun _ => addsThen addsAssertGuard fun _ => ?_
  refine addsThen addsTypeOf fun ty => addsThen (addsStoreEmits tells) fun _ => ?_
  split
  · exact addsThen addsLanes fun _ => addsStoreLanes
  · exact addsThen addsLanes fun _ => addsStoreLanes
  · split
    · exact addsHalt
    · exact addsThen addsBiased fun addrAct => addsThen addsHostVbits fun v => addsCall rfl

instance addsBindShadow {orig : IRTemp} {shadow : IRAtom} : Adds b (bindShadowTmpToOrig orig shadow) := by
  unfold bindShadowTmpToOrig
  refine addsThen addsAssertOriginal fun _ => addsThen addsAssertShadow fun _ => ?_
  cases shadow with
  | const con => exact addsHalt
  | rdTmp t => exact addsAfter findsShadow fun tmpV new => addsAssign new

instance addsFetch {ty : IRType} {a : IRAtom} : Adds b (fetch ty a) := by
  unfold fetch
  infer_instance

instance addsLoadOld {ty : IRType} {cas : IRCAS} {bias : Nat} : Adds b (loadOld ty cas bias) := by
  unfold loadOld
  infer_instance

theorem copiesCASSingle {cas : IRCAS} : Copies b [.cas cas] (doShadowCASSingle cas) (fun _ => True) := by
  unfold doShadowCASSingle
  refine weavesOwn addsTypeOf.adds fun elemTy _ => ?_
  split
  · exact weavesHalt
  · refine weavesOwn addsFetch.adds fun vdataLo _ => weavesOwn addsFetch.adds fun _ _ => ?_
    refine weavesOwn addsLoadOld.adds fun voldLo _ => weavesOwn addsBindShadow.adds fun _ _ => ?_
    refine weavesThen (copiesStmt (.cas cas)) fun _ _ => ?_
    have stored (expdEqOld : IRAtom) :
        Adds b (doShadowStore none cas.endness cas.addr 0 (.vdata vdataLo) (some expdEqOld)) := addsStore trivial
    exact (addsThen addsAssignNew stored).adds

theorem copiesCASDouble {cas : IRCAS} {hi : IRCASHi} :
    Copies b [.cas cas] (doShadowCASDouble cas hi) (fun _ => True) := by
  unfold doShadowCASDouble
  refine weavesOwn addsTypeOf.adds fun elemTy _ => ?_
  split
  · exact weavesHalt
  · refine weavesOwn addsFetch.adds fun vdataHi _ => weavesOwn addsFetch.adds fun vdataLo _ => ?_
    refine weavesOwn addsFetch.adds fun _ _ => weavesOwn addsFetch.adds fun _ _ => ?_
    refine weavesOwn addsLoadOld.adds fun voldHi _ => weavesOwn addsLoadOld.adds fun voldLo _ => ?_
    refine weavesOwn addsBindShadow.adds fun _ _ => weavesOwn addsBindShadow.adds fun _ _ => ?_
    refine weavesThen (copiesStmt (.cas cas)) fun _ _ => ?_
    refine (addsThen addsAssignNew fun xHi => addsThen addsAssignNew fun xLo => ?_).adds
    refine addsThen addsAssignNew fun xHL => addsThen addsAssignNew fun expdEqOld => ?_
    exact addsThen (addsStore trivial) fun _ => addsStore trivial

theorem copiesCAS {cas : IRCAS} : Copies b [.cas cas] (doShadowCAS cas) (fun _ => True) := by
  unfold doShadowCAS
  split
  · exact copiesCASSingle
  · exact copiesCASDouble

instance addsLoadG {lg : IRLoadG} : Adds b (doShadowLoadG lg) := by
  unfold doShadowLoadG
  refine addsThen addsAtom2vbits fun vbitsAlt => addsThen addsLoadGuarded fun vbitsFinal => ?_
  exact addsAfter findsShadow fun tmpV new => addsAssign new

/- The statements of a block the tool is told of: a guarded store as a store. -/
def toldOf : IRStmt Empty → Option (IRStmt Empty)
  | .storeG sg => some (.store sg.endness sg.addr sg.data)
  | .wrTmp tmp data => some (.wrTmp tmp data)
  | .put offset data => some (.put offset data)
  | .putI descr ix bias data => some (.putI descr ix bias data)
  | .store endness addr data => some (.store endness addr data)
  | .exit guard dst => some (.exit guard dst)
  | _ => none

theorem copiesInstrumented {st : IRStmt Empty} (tells : ∀ clone ∈ toldOf st, b.told clone) :
    Copies b [st] (instrumentStmt st) (fun _ => True) := by
  have behind (shadow : Adds b (shadowStmt st)) :
      Copies b [st] (shadowStmt st >>= fun _ => stmt st.copy) (fun _ => True) :=
    weavesOwn shadow.adds fun _ _ => copiesStmt st
  unfold instrumentStmt
  cases st with
  | cas cas => exact weavesThen copiesCAS fun _ _ => weavesPure trivial
  | wrTmp tmp data =>
    have told : Told b (.wrTmp tmp data) := ⟨tells _ rfl⟩
    exact weavesThen copiesWRTMP fun _ _ => weavesPure trivial
  | noOp | iMark addr len | abiHint base len nia | mbe => exact behind addsPure
  | put offset data =>
    have told : Told b (.put offset data) := ⟨tells _ rfl⟩
    exact behind addsPUT
  | putI descr ix bias data =>
    have told : Told b (.putI descr ix bias data) := ⟨tells _ rfl⟩
    exact behind addsPUTI
  | store endness addr data => exact behind (addsStore (tells _ rfl))
  | storeG sg => exact behind (addsStore (tells _ rfl))
  | loadG lg => exact behind addsLoadG
  | exit guard dst =>
    have told : Told b (.exit guard dst) := ⟨tells _ rfl⟩
    exact behind addsEMIT
  | dirty d => exact d.cee.elim

theorem copiesInstrumentedAll {sts : List (IRStmt Empty)}
    (tells : ∀ st ∈ sts, ∀ clone ∈ toldOf st, b.told clone) : Copies b sts (instrumentStmts sts) (fun _ => True) := by
  induction sts with
  | nil => exact weavesPure trivial
  | cons st rest ih =>
    exact weavesBind (copiesInstrumented (tells st List.mem_cons_self)) fun _ _ =>
      ih fun st' inside => tells st' (List.mem_cons_of_mem _ inside)

theorem copiesAll {sts : List (IRStmt Empty)} : Copies b sts (copyStmts sts) (fun _ => True) := by
  induction sts with
  | nil => exact weavesPure trivial
  | cons st rest ih => exact weavesBind (copiesStmt st) fun _ _ => ih

instance addsPreamble {sts : List (IRStmt Empty)} : Adds b (definePreamble sts) := by
  induction sts with
  | nil => exact addsPure
  | cons st rest ih =>
    cases st with
    | wrTmp tmp data =>
      refine addsAfter findsShadow fun tmpV new => addsThen addsTypeOfTemp fun tyV => ?_
      exact addsThen addsDefinedOfType fun defined => addsThen (addsAssign new) fun _ => ih
    | _ => exact ih

theorem preambleSplit (sts : List (IRStmt Empty)) : preamble sts ++ sts.drop (preamble sts).length = sts :=
  List.prefix_iff_eq_append.mp (List.takeWhile_prefix _)

theorem copiesBody {sb : IRSB Empty} (tells : ∀ st ∈ sb.stmts, ∀ clone ∈ toldOf st, b.told clone)
    (tellsNext : b.toldNext sb.next) : Copies b sb.stmts (instrumentBody sb) (fun _ => True) := by
  have body : Copies b (preamble sb.stmts ++ sb.stmts.drop (preamble sb.stmts).length) (instrumentBody sb)
      (fun _ => True) := by
    refine weavesBind copiesAll fun _ _ => weavesOwn addsPreamble.adds fun _ _ => ?_
    refine weavesOwn addsAssert.adds fun _ _ => weavesThen (copiesInstrumentedAll fun st inside =>
      tells st (List.mem_of_mem_drop inside)) fun _ _ => ?_
    exact (addsThen (addsNEXT tellsNext) fun _ => addsThen addsGet fun mce => addsAssert).adds
  rwa [preambleSplit] at body

end

def boundsOf (layout : Layout) (sb : IRSB Empty) : Bounds where
  temps := sb.tyenv.length
  state := layout.totalSizeB
  told clone := ∃ st ∈ sb.stmts, clone ∈ toldOf st
  toldNext next := next = sb.next

/- The new block is the old one with own statements between its own, and goes on to the same. -/
theorem instrumentsWoven {sb : IRSB Empty} {layout : Layout} {gWordTy hWordTy : IRType} {darwin : Bool}
    {out : IRSB Helper} (built : instrument sb layout gWordTy hWordTy darwin = some out) :
    Woven (Own (boundsOf layout sb)) IRStmt.copy sb.stmts out.stmts ∧ out.next = sb.next := by
  unfold instrument at built
  split at built
  · cases built
  · obtain ⟨⟨a,mce⟩,ran,made⟩ := Option.map_eq_some_iff.mp built
    cases made
    have start : Apart (boundsOf layout sb) (startEnv sb layout hWordTy darwin) := by
      refine ⟨Nat.le_refl _,fun ent inside t there => ?_,Nat.le_refl _⟩
      obtain ⟨ty,_,rfl⟩ := List.mem_map.mp inside
      cases there
    have tells : ∀ st ∈ sb.stmts, ∀ clone ∈ toldOf st, (boundsOf layout sb).told clone :=
      fun st inside clone told => ⟨st,inside,told⟩
    obtain ⟨_,_,new,wrote,woven⟩ := copiesBody tells rfl _ a mce start ran
    refine ⟨?_,rfl⟩
    show Woven _ _ sb.stmts mce.stmts
    rw [wrote]
    exact woven

end Autonomizer.Added
