import Mathlib
import Autonomizer.Sound

/-! An assignment of the block in the new one: its value, which of its bits are tainted, and what
the tool is told of both. -/
namespace Autonomizer.Assigned
open Bits Emitted Instrument Propagation ShadowMemory Shadows ShadowRuns Sound Total Translate Typed VexIR

section
variable {σ : Type} {prims : Prims} {calls : Calls Helper σ} {env : Setting} {Γ : Set Fact} {U : Set Todo}
  {w : World σ} {a : IRAtom} {ty : IRType} {x : Value} {cat : Cat}

def Small : IRType → Prop
  | .i1 | .i8 | .i16 | .i32 | .i64 => True
  | _ => False

def widened (ty : IRType) (x : Value) : Value := if ty = .i64 then x else cut ty.bits x

theorem denotesKind {kind : TempKind} {t : IRType} (op : Unop) (known : Has Γ a kind ⟨t,x⟩) :
    Denotes prims Γ w (.unop op a) ⟨op.type.1,op.eval prims x⟩ := by
  intro c facts
  refine ⟨rfl,?_⟩
  rw [eval,(known.has c facts).value]

theorem widensTwice {n : Nat} (op : Unop) (typed : op.type.1 = .i32) (computes : op.eval prims x = cut n x)
    (less : n ≤ 32) (known : Has Γ a (catKind cat) ⟨ty,x⟩) :
    Yields prims calls env Γ U w (assignNew cat .i32 (.unop op a) >>= fun half =>
      assignNew cat .i64 (.unop .iop32Uto64 half)) (catKind cat) ⟨.i64,cut n x⟩ := by
  have again : cut 32 (cut n x) = cut n x := by
    apply BitVec.eq_of_getLsbD_eq
    intro i _
    rw [cutBit,cutBit]
    by_cases low : i < n
    · rw [decide_eq_true (show i < 32 by omega),Bool.and_true]
    · rw [decide_eq_false low,Bool.and_false,Bool.false_and]
  have first : Yields prims calls env Γ U w (assignNew cat .i32 (.unop op a)) (catKind cat) ⟨op.type.1,cut n x⟩ :=
    computes ▸ doesAssignNew (denotesKind op known) typed
  refine yieldsBind first fun half => ?_
  have narrow : Has (insert (.atom half (catKind cat) ⟨op.type.1,cut n x⟩) Γ) half (catKind cat)
      ⟨op.type.1,cut n x⟩ := inferInstance
  refine yieldsSame (doesAssignNew (denotesKind .iop32Uto64 narrow) rfl) ?_
  exact congrArg (Val.mk .i64) again

theorem zwidens (small : Small ty) (known : Has Γ a (catKind cat) ⟨ty,x⟩) :
    Yields prims calls env Γ U w (zwiden cat .i64 a) (catKind cat) ⟨.i64,widened ty x⟩ := by
  have value : HasValue Γ a ⟨ty,x⟩ := ⟨fun c facts => ⟨(known.has c facts).type,(known.has c facts).value⟩⟩
  refine yieldsTypeOf ?_
  cases ty with
  | i64 => exact yieldsPure
  | i32 => exact doesAssignNew (denotesKind .iop32Uto64 known) rfl
  | i16 => exact widensTwice .iop16Uto32 rfl rfl (by decide) known
  | i8 => exact widensTwice .iop8Uto32 rfl rfl (by decide) known
  | i1 => exact widensTwice .iop1Uto32 rfl rfl (by decide) known
  | i128 | f16 | f32 | f64 | d32 | d64 | d128 | f128 | v128 | v256 => exact small.elim

end

section
variable {σ : Type} {ask : Event → σ → Option (List UChar × σ)} {takes : List Report → Report → Bool} {prims : Prims}
  {env : Setting} {Γ : Set Fact} {U : Set Todo} {w w' : World σ}

theorem callsTold {Δ : Set Fact} {h : Helper} {args : List IRAtom} (values : List Value) (fewer : Δ ⊆ Γ)
    (words : ∀ c, (∀ φ ∈ Γ, φ.Holds c) → args.map (evalAtom c.tmp) = values.map (Val.mk .i64))
    (tells : (helperCalls ask takes).call h (values.map (cut 64)) w = some (0,w')) :
    Does prims (helperCalls ask takes) env Γ U w (callHelper h args none) (fun _ => Δ) U w' := by
  refine doesLess (doesStmt fun c facts => ?_) fun _ => fewer
  have given : (args.map IRArg.atom).map (argValue c.tmp) = values.map (cut 64) := by
    have cuts : (args.map IRArg.atom).map (argValue c.tmp) =
        (args.map (evalAtom c.tmp)).map fun v => cut v.ty.bits v.bits := by
      rw [List.map_map,List.map_map]
      rfl
    rw [cuts,words c facts,List.map_map]
    rfl
  have made : isTrue (evalAtom c.tmp true_).bits = true := (by decide : isTrue (constBits (.u1 true)) = true)
  have ran : (helperCalls ask takes).call h ((args.map IRArg.atom).map (argValue c.tmp)) w = some (0,w') := by
    rw [given]
    exact tells
  simp only [exec,doDirty,Option.getD_none,if_pos made,ran,setTmp,Option.map_some]

theorem cutWord (z : Value) : (cut 64 z).setWidth 64 = z.setWidth 64 := by
  apply BitVec.eq_of_getLsbD_eq
  intro i low
  rw [BitVec.getLsbD_setWidth,BitVec.getLsbD_setWidth,cutBit,decide_eq_true low,Bool.and_true]

theorem widenedWord (ty : IRType) (x : Value) : (widened ty x).setWidth 64 = (cut ty.bits x).setWidth 64 := by
  unfold widened
  split
  · rename_i word
    subst word
    exact (cutWord x).symm
  · rfl

section
variable {data vdata : IRAtom} {ty s : IRType} {x v : Value} {clone : IRStmt Empty}

theorem emitsWhole (host : env.hWordTy = .i64) (small : Small ty)
    (accepts : takes w.log (.insn clone ((cut ty.bits x).setWidth 64) ((cut ty.bits v).setWidth 64)) = true) [known : Has Γ data .orig ⟨ty,x⟩]
    [shadow : Has Γ vdata .vSh ⟨ty,v⟩] :
    Does prims (helperCalls ask takes) env Γ U w (emitWhole clone data vdata) (fun _ => Γ) U
      (told w (.insn clone ((cut ty.bits x).setWidth 64) ((cut ty.bits v).setWidth 64))) := by
  have first : Yields prims (helperCalls ask takes) env Γ U w (zwidenToHostWordC data) .orig ⟨.i64,widened ty x⟩ := by
    refine yieldsGet fun mce same => ?_
    rw [same,host]
    exact zwidens small known
  refine doesBind first fun value => ?_
  have second : Yields prims (helperCalls ask takes) env (insert (.atom value .orig ⟨.i64,widened ty x⟩) Γ) U w
      (zwidenToHostWord vdata) .vSh ⟨.i64,widened ty v⟩ := by
    refine yieldsShadow (yieldsGet fun mce same => ?_)
    rw [same,host]
    have kept : Has (insert (.atom value .orig ⟨.i64,widened ty x⟩) Γ) vdata .vSh ⟨ty,v⟩ := inferInstance
    exact zwidens small kept
  refine doesBind second fun taint => ?_
  have tells : (helperCalls ask takes).call (.emitInsn clone) [cut 64 (widened ty x),cut 64 (widened ty v)] w =
      some (0,told w (.insn clone ((cut ty.bits x).setWidth 64) ((cut ty.bits v).setWidth 64))) := by
    rw [← widenedWord,← widenedWord,← cutWord (widened ty x),← cutWord (widened ty v)] at accepts ⊢
    exact if_pos accepts
  refine callsTold [widened ty x,widened ty v] ((Set.subset_insert ..).trans (Set.subset_insert ..))
    (fun c facts => ?_) tells
  have here : AtomIs c value .orig ⟨.i64,widened ty x⟩ := facts _ (.inr (.inl rfl))
  have there : AtomIs c taint .vSh ⟨.i64,widened ty v⟩ := facts _ (.inl rfl)
  show [evalAtom c.tmp value,evalAtom c.tmp taint] = _
  rw [here.value,there.value]
  rfl

theorem emitsTaint (shadow : shadowTypeV s = s)
    (accepts : takes w.log (.insn1 clone ((castV s .i64 v).setWidth 64)) = true) [Has Γ vdata .vSh ⟨s,v⟩] :
    Does prims (helperCalls ask takes) env Γ U w (emitTaint clone .i64 vdata) (fun _ => Γ) U
      (told w (.insn1 clone ((castV s .i64 v).setWidth 64))) := by
  refine doesBind (mkPCastTos shadow rfl) fun taint => ?_
  have tells : (helperCalls ask takes).call (.emitInsn1 clone) [cut 64 (castV s .i64 v)] w =
      some (0,told w (.insn1 clone ((castV s .i64 v).setWidth 64))) := by
    rw [← cutWord] at accepts ⊢
    exact if_pos accepts
  refine callsTold [castV s .i64 v] (Set.subset_insert ..) (fun c facts => ?_) tells
  have there : AtomIs c taint .vSh ⟨.i64,castV s .i64 v⟩ := facts _ (.inl rfl)
  show [evalAtom c.tmp taint] = _
  rw [there.value]
  rfl

theorem doesHostWord {β : Type} {f : IRType → Build β} {Γ' : β → Set Fact} {U' : Set Todo} (host : env.hWordTy = .i64)
    (next : Does prims (helperCalls ask takes) env Γ U w (f .i64) Γ' U' w') :
    Does prims (helperCalls ask takes) env Γ U w (hostWord >>= f) Γ' U' w' := by
  unfold hostWord
  rw [bind_assoc]
  refine doesGet fun mce same => ?_
  dsimp only
  rw [same,host,bind_assoc]
  exact doesAssert (show IRType.i64 = .i32 ∨ IRType.i64 = .i64 from .inr rfl) next

theorem emits (host : env.hWordTy = .i64) (accepts : takes w.log (reportOf clone ⟨ty,x⟩ v) = true) [known : Has Γ data .orig ⟨ty,x⟩]
    [HasShadow Γ data ⟨shadowTypeV ty,v⟩] :
    Does prims (helperCalls ask takes) env Γ U w (createDirtyEMIT clone data) (fun _ => Γ) U
      (told w (reportOf clone ⟨ty,x⟩ v)) := by
  refine doesAtom2vbits fun vdata _ => doesHostWord host (doesShadow (doesTypeOf ?_))
  have back (a : Unit) : Γ ⊆ insert (.atom vdata .vSh ⟨shadowTypeV ty,v⟩) Γ := Set.subset_insert ..
  cases ty with
  | i64 | i32 | i16 | i8 | i1 =>
    refine doesLess (emitsWhole host ?_ accepts) back
    trivial
  | i128 | f16 | f32 | f64 | d32 | d64 | d128 | f128 | v128 | v256 => exact doesLess (emitsTaint rfl accepts) back

theorem hasMember {a : IRAtom} {kind : TempKind} {v : Val} (inside : .atom a kind v ∈ Γ) : Has Γ a kind v :=
  ⟨fun _ facts => facts _ inside⟩

theorem assigns {tmp : IRTemp} {e : IRExpr} (host : env.hWordTy = .i64)
    (accepts : takes w.log (reportOf clone ⟨ty,x⟩ v) = true) (waits : .unset tmp .orig ty ∈ U)
    (shadowless_ : .unshadowed tmp ty ∈ U) (value : Denotes prims Γ w e ⟨ty,x⟩)
    (taint : ∀ Δ V, Expresses prims (helperCalls ask takes) env (insert Δ Γ) V w (expr2vbits e) ⟨shadowTypeV ty,v⟩) :
    Does prims (helperCalls ask takes) env Γ U w (doShadowWRTMP clone tmp e)
      (fun _ => insert (.shadow (.rdTmp tmp) ⟨shadowTypeV ty,v⟩) (insert (.atom (.rdTmp tmp) .orig ⟨ty,x⟩) Γ))
      (shadowless tmp (others tmp U)) (told w (reportOf clone ⟨ty,x⟩ v)) := by
  refine doesBind (doesAssign waits value) fun _ => ?_
  refine taint _ _ _ _ _ _ _ fun vexpr Δ more denotes => ?_
  have still : .unshadowed tmp ty ∈ others tmp U := ⟨shadowless_,fun _ _ same => by cases same⟩
  refine doesFindAssign still rfl denotes (doesLess ?_ fun _ => Set.insert_subset_insert more)
  have known : Has (insert (.shadow (.rdTmp tmp) ⟨shadowTypeV ty,v⟩) Δ) (.rdTmp tmp) .orig ⟨ty,x⟩ :=
    hasMember (.inr (more (.inl rfl)))
  exact emits host accepts

end

end

/- The operations. Of those that are left out nothing is said here. -/
def Operation : IRExpr → Prop
  | .unop op _ => GuestUnop op
  | .binop op _ _ => GuestBinop op ∧ Kept op
  | .triop op _ _ _ => GuestTriop op
  | _ => False

def operands : IRExpr → List (IRAtom × IRType)
  | .unop op arg => [(arg,op.type.2)]
  | .binop op arg1 arg2 => [(arg1,op.type.2.1),(arg2,op.type.2.2)]
  | .triop op arg1 arg2 arg3 => [(arg1,op.type.2.1),(arg2,op.type.2.2.1),(arg3,op.type.2.2.2)]
  | _ => []

section
variable (prims : Prims) (env : Setting) (value taint : IRAtom → Value)

def result : IRExpr → Val
  | .unop op arg => ⟨op.type.1,op.eval prims (value arg)⟩
  | .binop op arg1 arg2 => ⟨op.type.1,op.eval prims (value arg1) (value arg2)⟩
  | .triop op arg1 arg2 arg3 => ⟨op.type.1,op.eval prims (value arg1) (value arg2) (value arg3)⟩
  | _ => ⟨.i1,0⟩

def resultTaint : IRExpr → Value
  | .unop op arg => vbitsUnop prims op (value arg) (taint arg)
  | .binop op arg1 arg2 =>
    vbitsBinop prims env op (literalZero op arg2) (value arg1) (value arg2) (taint arg1) (taint arg2)
  | .triop op arg1 arg2 arg3 => vbitsTriop op (taint arg1) (taint arg2) (taint arg3)
  | _ => 0

def Literal : Prop := ∀ con, value (.const con) = constBits con

structure Known (Γ : Set Fact) (e : IRExpr) : Prop where
  values : ∀ o ∈ operands e, Has Γ o.1 .orig ⟨o.2,value o.1⟩
  shadows : ∀ o ∈ operands e, HasShadow Γ o.1 ⟨shadowTypeV o.2,taint o.1⟩

variable {prims env value taint} {σ : Type} {calls : Calls Helper σ} {Γ Δ : Set Fact} {U : Set Todo} {w : World σ}
  {e : IRExpr} {value' : IRAtom → Value}

theorem knownMore (known : Known value taint Γ e) (more : Γ ⊆ Δ) : Known value taint Δ e where
  values o among := ⟨fun c facts => (known.values o among).has c fun φ inside => facts φ (more inside)⟩
  shadows o among := ⟨fun c facts => (known.shadows o among).has c fun φ inside => facts φ (more inside)⟩

theorem denotesResult (operation : Operation e) (known : Known value taint Γ e) :
    Denotes prims Γ w e (result prims value e) := by
  intro c facts
  have same (o : IRAtom × IRType) (among : o ∈ operands e) : evalAtom c.tmp o.1 = ⟨o.2,value o.1⟩ :=
    ((known.values o among).has c facts).value
  cases e with
  | unop op arg =>
    refine ⟨rfl,?_⟩
    rw [eval,same (arg,op.type.2) (by simp [operands])]
    rfl
  | binop op arg1 arg2 =>
    refine ⟨rfl,?_⟩
    rw [eval,same (arg1,op.type.2.1) (by simp [operands]),same (arg2,op.type.2.2) (by simp [operands])]
    rfl
  | triop op arg1 arg2 arg3 =>
    refine ⟨rfl,?_⟩
    rw [eval,same (arg1,op.type.2.1) (by simp [operands]),same (arg2,op.type.2.2.1) (by simp [operands]),
      same (arg3,op.type.2.2.2) (by simp [operands])]
    rfl
  | _ => exact operation.elim

theorem expressesResult (operation : Operation e) (known : Known value taint Γ e) :
    Expresses prims calls env Γ U w (expr2vbits e)
      ⟨shadowTypeV (result prims value e).ty,resultTaint prims env value taint e⟩ := by
  cases e with
  | unop op arg =>
    have first := known.values (arg,op.type.2) (by simp [operands])
    have shadow := known.shadows (arg,op.type.2) (by simp [operands])
    exact expressesYields (expr2vbitsUnops operation)
  | binop op arg1 arg2 =>
    have first := known.values (arg1,op.type.2.1) (by simp [operands])
    have second := known.values (arg2,op.type.2.2) (by simp [operands])
    have shadow1 := known.shadows (arg1,op.type.2.1) (by simp [operands])
    have shadow2 := known.shadows (arg2,op.type.2.2) (by simp [operands])
    exact expr2vbitsBinops operation.1
  | triop op arg1 arg2 arg3 =>
    have first := known.values (arg1,op.type.2.1) (by simp [operands])
    have second := known.values (arg2,op.type.2.2.1) (by simp [operands])
    have third := known.values (arg3,op.type.2.2.2) (by simp [operands])
    have shadow1 := known.shadows (arg1,op.type.2.1) (by simp [operands])
    have shadow2 := known.shadows (arg2,op.type.2.2.1) (by simp [operands])
    have shadow3 := known.shadows (arg3,op.type.2.2.2) (by simp [operands])
    exact expressesYields (expr2vbitsTriops operation)
  | _ => exact operation.elim

theorem literalNone (literal : Literal value) {op : Binop} {a : IRAtom} (zero : literalZero op a = true) :
    value a = 0 := by
  cases op with
  | cmpORD t syned =>
    cases a with
    | rdTmp u => cases t <;> cases zero
    | const con =>
      rw [literal]
      cases con with
      | u32 n =>
        obtain ⟨_,rfl⟩ := of_decide_eq_true (zero : decide (t = .w32 ∧ n = 0) = true)
        rfl
      | u64 n =>
        obtain ⟨_,rfl⟩ := of_decide_eq_true (zero : decide (t = .w64 ∧ n = 0) = true)
        rfl
      | _ => cases zero
  | _ => cases zero

/- Whatever the tainted bits of the operands are, the untainted ones of the result are the same. -/
theorem resultSound (operation : Operation e) (literal : Literal value) (literal' : Literal value')
    (agree : ∀ o ∈ operands e, Agree o.2.bits (taint o.1) (value o.1) (value' o.1)) :
    Agree (result prims value e).ty.bits (resultTaint prims env value taint e) (result prims value e).bits
      (result prims value' e).bits := by
  cases e with
  | unop op arg => exact unopSound prims operation (agree (arg,op.type.2) (by simp [operands]))
  | binop op arg1 arg2 =>
    refine binopSound prims operation.2 (fun zero => ?_) (agree (arg1,op.type.2.1) (by simp [operands]))
      (agree (arg2,op.type.2.2) (by simp [operands]))
    rw [literalNone literal zero,literalNone literal' zero]
    exact ⟨cutNothing _,cutNothing _⟩
  | triop op arg1 arg2 arg3 =>
    exact triopSound prims (agree (arg1,op.type.2.1) (by simp [operands]))
      (agree (arg2,op.type.2.2.1) (by simp [operands])) (agree (arg3,op.type.2.2.2) (by simp [operands]))
  | _ => exact operation.elim

end

/- The code written for an assignment assigns the value and its taint, and tells the tool of
both, which passes where the tool takes that report; and no untainted bit of the value depends on a tainted one of the operands. -/
theorem assignmentTaints {σ : Type} (prims : Prims) (ask : Event → σ → Option (List UChar × σ))
    (takes : List Report → Report → Bool) {env : Setting} {Γ : Set Fact} {U : Set Todo} {value taint : IRAtom → Value}
    {e : IRExpr} (clone : IRStmt Empty) (w : World σ) {tmp : IRTemp} (host : env.hWordTy = .i64)
    (accepts : takes w.log (reportOf clone (result prims value e) (resultTaint prims env value taint e)) = true)
    (operation : Operation e) (literal : Literal value)
    (known : Known value taint Γ e) (waits : .unset tmp .orig (result prims value e).ty ∈ U)
    (unshadowed : .unshadowed tmp (result prims value e).ty ∈ U) :
    Does prims (helperCalls ask takes) env Γ U w (doShadowWRTMP clone tmp e)
      (fun _ => insert (.shadow (.rdTmp tmp) ⟨shadowTypeV (result prims value e).ty,resultTaint prims env value taint e⟩)
        (insert (.atom (.rdTmp tmp) .orig (result prims value e)) Γ))
      (shadowless tmp (others tmp U))
      (told w (reportOf clone (result prims value e) (resultTaint prims env value taint e))) ∧
    ∀ value', Literal value' → (∀ o ∈ operands e, Agree o.2.bits (taint o.1) (value o.1) (value' o.1)) →
      Agree (result prims value e).ty.bits (resultTaint prims env value taint e) (result prims value e).bits
        (result prims value' e).bits := by
  refine ⟨?_,fun value' literal' agree => resultSound operation literal literal' agree⟩
  exact assigns host accepts waits unshadowed (denotesResult operation known)
    fun φ V => expressesResult operation (knownMore known (Set.subset_insert ..))

def maskedStart : MCEnv where
  tyenv := [.i32,.i32,.i32]
  stmts := []
  tmpMap := [⟨.orig,some 2⟩,⟨.orig,none⟩,⟨.vSh,none⟩]
  setting := ⟨false,false,64,.i64⟩

def maskedMachine : Machine Flat where
  tmp t := if t = 0 then ⟨.i32,0x35⟩ else if t = 2 then ⟨.i32,0xF0⟩ else ⟨.i1,0⟩
  world := emptyWorld

def maskedValue : IRAtom → Value
  | .rdTmp _ => 0x35
  | .const con => constBits con

def maskedTaint : IRAtom → Value
  | .rdTmp _ => 0xF0
  | .const _ => 0

def maskedExpr : IRExpr := .binop (.and .w32) (.rdTmp 0) (.const (.u32 0x1F))

def maskedFacts : Set Fact := {.atom (.rdTmp 0) .orig ⟨.i32,0x35⟩,.shadow (.rdTmp 0) ⟨.i32,0xF0⟩}
def maskedTodo : Set Todo := {.unset 1 .orig .i32,.unshadowed 1 .i32}

theorem maskedAt : At maskedStart.setting maskedFacts maskedTodo maskedMachine.world maskedStart maskedMachine := by
  refine ⟨rfl,{0,2},⟨⟨rfl,rfl,fun t inside => ?_⟩,fun φ inside => ?_,fun φ inside => ?_⟩⟩
  · rcases inside with rfl | rfl <;> decide
  · rcases inside with rfl | rfl
    · exact ⟨rfl,rfl,rfl,.inl rfl⟩
    · exact ⟨2,rfl,rfl,rfl,rfl,.inr rfl⟩
  · rcases inside with rfl | rfl
    · refine ⟨rfl,rfl,fun one => ?_⟩
      rcases one with one | one <;> cases one
    · exact ⟨rfl,rfl⟩

/- Of the mask's result the fifth bit is tainted: the operand's others are zeroes of the mask. -/
theorem assignmentTaintsMask : ∃ mce t,
    Emission.Emitted (writer noPrims (helperCalls (fun e f => some (flat e f)) fun _ _ => true))
      (doShadowWRTMP (.wrTmp 1 maskedExpr) 1 maskedExpr) maskedStart maskedMachine () mce t ∧
    t.world.log = [.insn (.wrTmp 1 maskedExpr) 0x15 0x10] := by
  have known : Known maskedValue maskedTaint maskedFacts maskedExpr := by
    constructor <;> intro o among <;> fin_cases among
    · exact ⟨fun c facts => facts _ (.inl rfl)⟩
    · exact hasConst
    · exact ⟨fun c facts => facts _ (.inr rfl)⟩
    · exact shadowConst
  have operation : Operation maskedExpr := ⟨trivial,trivial⟩
  have literal : Literal maskedValue := fun _ => rfl
  obtain ⟨_,mce,t,emitted,world,_⟩ := (assignmentTaints noPrims (fun e f => some (flat e f)) (fun _ _ => true)
    (.wrTmp 1 maskedExpr) emptyWorld rfl rfl operation literal known (.inl rfl) (.inr rfl)).1 maskedStart maskedMachine maskedAt
  refine ⟨mce,t,emitted,?_⟩
  rw [world]
  decide

end Autonomizer.Assigned
