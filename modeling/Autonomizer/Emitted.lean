import Mathlib
import Autonomizer.Shadows
import Autonomizer.Typed

/-! What the code for the taint of an expression computes. -/
namespace Autonomizer.Emitted
open Bits Propagation ShadowRuns Shadows Translate Typed VexIR

section
variable {v x y : Value} {s d : IRType} {n m : Nat}

theorem pcastPcast {k : Nat} (some_ : 0 < m) (fits : m ≤ 256) :
    pcast m n (pcast k m v : Value) = pcast k n v := by
  by_cases none_ : cut k v = 0
  · rw [pcast,if_pos ((pcastZero some_ fits).mpr none_),pcast,if_pos none_]
  · rw [pcast,if_neg (mt (pcastZero some_ fits).mp none_),pcast,if_neg none_]

theorem bitsSome (ty : IRType) : 0 < ty.bits := by cases ty <;> decide

theorem bitsFit (ty : IRType) : ty.bits ≤ 256 := by cases ty <;> decide

theorem castPlain (plain : s ≠ .i1 ∨ d ≠ .i1) : castV s d v = pcast s.bits d.bits v := by
  rw [castV,if_neg]
  intro both
  exact plain.elim (fun other => other both.1) fun other => other both.2

theorem castZero : cut d.bits (castV s d v) = 0 ↔ cut s.bits v = 0 := by
  by_cases one : s = .i1 ∧ d = .i1
  · rw [castV,if_pos one,one.1,one.2]
  · rw [castV,if_neg one,pcastZero (bitsSome d) (bitsFit d)]

theorem castVia : castV .i1 d (castV s .i1 v) = castV s d v := by
  by_cases first : s = .i1
  · rw [first]
    rfl
  · by_cases second : d = .i1
    · rw [second]
      rfl
    · rw [castPlain (.inr second),castPlain (.inl first),castPlain (.inl first)]
      exact pcastPcast Nat.one_pos (by decide)

theorem onesCut : cut m (ones n : Value) = ones (min m n) := by
  apply BitVec.eq_of_getLsbD_eq
  intro i _
  rw [cutBit,onesBit,onesBit]
  by_cases low : i < n <;> by_cases less : i < m <;> simp [low,less]

theorem concatPcast (fits : 2 * n ≤ 256) : concat n (pcast m n v) (pcast m n v) = pcast m (2 * n) v := by
  by_cases none_ : cut m v = 0
  · rw [pcast,if_pos none_,pcast,if_pos none_,concat,cutNothing]
    simp
  · rw [pcast,if_neg none_,pcast,if_neg none_,concat,onesCut,Nat.min_self]
    apply BitVec.eq_of_getLsbD_eq
    intro i inside
    rw [BitVec.getLsbD_or,BitVec.getLsbD_shiftLeft,onesBit,onesBit,onesBit,decide_eq_true inside]
    by_cases low : i < n
    · have less : i < 2 * n := by omega
      simp [low,less]
    · have half : i - n < n ↔ i < 2 * n := by omega
      have less : i - n < 256 := by omega
      simp [low,half,less]

theorem flagPcast : flag (decide (cut n v ≠ 0)) = (pcast n 1 v : Value) := by
  by_cases none_ : cut n v = 0
  · rw [pcast,if_pos none_,none_]
    rfl
  · rw [pcast,if_neg none_,decide_eq_true none_]
    rfl

theorem sextPcast : cut n (sext 1 v) = (pcast 1 n v : Value) := by
  have one : cut 1 v = 0 ↔ v.getLsbD 0 = false := by
    rw [cutZero]
    exact ⟨fun none_ => none_ 0 Nat.one_pos,fun none_ i low => Nat.lt_one_iff.mp low ▸ none_⟩
  apply BitVec.eq_of_getLsbD_eq
  intro i inside
  rw [cutBit,sextBit inside]
  by_cases none_ : cut 1 v = 0
  · rw [pcast,if_pos none_]
    show _ = (0#256).getLsbD i
    rw [BitVec.getLsbD_zero]
    have bit := one.mp none_
    by_cases first : i < 1
    · rw [if_pos first,Nat.lt_one_iff.mp first,bit,Bool.false_and]
    · rw [if_neg first,bit,Bool.false_and]
  · rw [pcast,if_neg none_,onesBit,decide_eq_true inside,Bool.true_and]
    have bit : v.getLsbD 0 = true := by
      rw [one] at none_
      exact Bool.eq_true_of_not_eq_false none_
    by_cases first : i < 1
    · rw [if_pos first,Nat.lt_one_iff.mp first,bit,Bool.true_and]
    · rw [if_neg first,bit,Bool.true_and]

theorem cutPcast (less : m ≤ n) : cut m (pcast 64 n v) = (pcast 64 m v : Value) := by
  by_cases none_ : cut 64 v = 0
  · rw [pcast,if_pos none_,pcast,if_pos none_,cutNothing]
  · rw [pcast,if_neg none_,pcast,if_neg none_,onesCut,Nat.min_eq_left less]

theorem halvesZero : cut n (x ||| x >>> n) = 0 ↔ cut (2 * n) x = 0 := by
  rw [cutZero,cutZero]
  constructor
  · intro none_ i low
    by_cases first : i < n
    · have bit := none_ i first
      rw [BitVec.getLsbD_or,Bool.or_eq_false_iff] at bit
      exact bit.1
    · have bit := none_ (i - n) (by omega)
      rw [BitVec.getLsbD_or,Bool.or_eq_false_iff,BitVec.getLsbD_ushiftRight,Nat.add_sub_cancel' (by omega)] at bit
      exact bit.2
  · intro none_ i low
    rw [BitVec.getLsbD_or,BitVec.getLsbD_ushiftRight,none_ i (by omega),none_ (n + i) (by omega)]
    rfl

theorem flagHalves : flag (decide (cut 64 (cut 64 (cut 64 (v >>> 64) ||| cut 64 v)) ≠ 0)) = (pcast 128 1 v : Value) := by
  have same : cut 64 (cut 64 (cut 64 (v >>> 64) ||| cut 64 v)) = 0 ↔ cut 128 v = 0 := by
    rw [cutTwice,← halvesZero (n := 64),cutZero,cutZero]
    refine forall_congr' fun i => forall_congr' fun low => ?_
    simp only [BitVec.getLsbD_or,cutBit,decide_eq_true low,Bool.and_true,Bool.or_comm]
  rw [pcast,← if_congr same rfl rfl,flagPcast,pcast]

theorem flagQuarters : flag (decide (cut 64 (cut 64 (cut 64 (cut 64 v ||| cut 64 (v >>> 64)) |||
    cut 64 (cut 64 (v >>> 128) ||| cut 64 (v >>> 192)))) ≠ 0)) = (pcast 256 1 v : Value) := by
  have same : cut 64 (cut 64 (cut 64 (cut 64 v ||| cut 64 (v >>> 64)) |||
      cut 64 (cut 64 (v >>> 128) ||| cut 64 (v >>> 192)))) = 0 ↔ cut 256 v = 0 := by
    have halves : cut 256 v = 0 ↔ cut 128 (v ||| v >>> 128) = 0 := (halvesZero (n := 128)).symm
    have quarters (u : Value) : cut 128 u = 0 ↔ cut 64 (u ||| u >>> 64) = 0 := (halvesZero (n := 64)).symm
    rw [cutTwice,halves,quarters,cutZero,cutZero]
    refine forall_congr' fun i => forall_congr' fun low => ?_
    simp only [BitVec.getLsbD_or,BitVec.getLsbD_ushiftRight,cutBit,decide_eq_true low,Bool.and_true,
      ← Nat.add_assoc,Nat.reduceAdd,Bool.or_assoc]
    rw [Bool.or_left_comm (v.getLsbD (64 + i))]
  rw [pcast,← if_congr same rfl rfl,flagPcast,pcast]

end

section
variable {σ : Type} {prims : Prims} {calls : Calls Helper σ} {env : Setting} {Γ : Set Fact} {U : Set Todo}
  {w : World σ} {a b : IRAtom} {s d : IRType} {v x y : Value}

theorem collapses [Has Γ a .vSh ⟨s,v⟩] (shadow : shadowTypeV s = s) :
    Yields prims calls env Γ U w (collapse s a) .vSh ⟨.i1,castV s .i1 v⟩ := by
  cases s with
  | i1 => exact yieldsPure
  | i8 => exact yieldsSame (unopV (.cmpNEZ .w8) rfl) (congrArg _ flagPcast)
  | i16 => exact yieldsSame (unopV (.cmpNEZ .w16) rfl) (congrArg _ flagPcast)
  | i32 => exact yieldsSame (unopV (.cmpNEZ .w32) rfl) (congrArg _ flagPcast)
  | i64 => exact yieldsSame (unopV (.cmpNEZ .w64) rfl) (congrArg _ flagPcast)
  | i128 =>
    refine yieldsBind (unopV .iop128HIto64 rfl) fun tmp2 => ?_
    refine yieldsBind (unopV .iop128to64 rfl) fun tmp3 => ?_
    refine yieldsBind (binopV (.or .w64) rfl) fun tmp4 => ?_
    exact yieldsSame (unopV (.cmpNEZ .w64) rfl) (congrArg _ flagHalves)
  | v128 =>
    refine yieldsBind (unopV .v128HIto64 rfl) fun tmp2 => ?_
    refine yieldsBind (unopV .v128to64 rfl) fun tmp3 => ?_
    refine yieldsBind (binopV (.or .w64) rfl) fun tmp4 => ?_
    exact yieldsSame (unopV (.cmpNEZ .w64) rfl) (congrArg _ flagHalves)
  | v256 =>
    refine yieldsBind (unopV .v256to64_0 rfl) fun tmp2 => ?_
    refine yieldsBind (unopV .v256to64_1 rfl) fun tmp3 => ?_
    refine yieldsBind (binopV (.or .w64) rfl) fun tmp4 => ?_
    refine yieldsBind (unopV .v256to64_2 rfl) fun tmp5 => ?_
    refine yieldsBind (unopV .v256to64_3 rfl) fun tmp6 => ?_
    refine yieldsBind (binopV (.or .w64) rfl) fun tmp7 => ?_
    refine yieldsBind (binopV (.or .w64) rfl) fun tmp8 => ?_
    exact yieldsSame (unopV (.cmpNEZ .w64) rfl) (congrArg _ flagQuarters)
  | _ => cases shadow

theorem spreads [Has Γ a .vSh ⟨.i1,v⟩] (shadow : shadowTypeV d = d) :
    Yields prims calls env Γ U w (spread d a) .vSh ⟨d,castV .i1 d v⟩ := by
  cases d with
  | i1 => exact yieldsPure
  | i8 => exact yieldsSame (unopV .iop1Sto8 rfl) (congrArg _ sextPcast)
  | i16 => exact yieldsSame (unopV .iop1Sto16 rfl) (congrArg _ sextPcast)
  | i32 => exact yieldsSame (unopV .iop1Sto32 rfl) (congrArg _ sextPcast)
  | i64 => exact yieldsSame (unopV .iop1Sto64 rfl) (congrArg _ sextPcast)
  | v128 =>
    refine yieldsBind (yieldsSame (unopV .iop1Sto64 rfl) (congrArg _ sextPcast)) fun tmp1 => ?_
    exact yieldsSame (binopV .iop64HLtoV128 rfl) (congrArg _ (concatPcast (by decide)))
  | i128 =>
    refine yieldsBind (yieldsSame (unopV .iop1Sto64 rfl) (congrArg _ sextPcast)) fun tmp1 => ?_
    exact yieldsSame (binopV .iop64HLto128 rfl) (congrArg _ (concatPcast (by decide)))
  | v256 =>
    refine yieldsBind (yieldsSame (unopV .iop1Sto64 rfl) (congrArg _ sextPcast)) fun tmp1 => ?_
    refine yieldsBind (yieldsSame (binopV .iop64HLtoV128 rfl) (congrArg _ (concatPcast (by decide)))) fun tmp1 => ?_
    exact yieldsSame (binopV .v128HLtoV256 rfl) (congrArg _ (concatPcast (by decide)))
  | _ => cases shadow

theorem mkBinops (op : Binop) [Has Γ a .vSh ⟨s,x⟩] [Has Γ b .vSh ⟨d,y⟩] {ty : IRType} (typed : op.type.1 = ty) :
    Yields prims calls env Γ U w (mkBinop ty op a b) .vSh ⟨op.type.1,op.eval prims x y⟩ :=
  yieldsShadow (yieldsShadow (binopV op typed))

theorem mkUnops (op : Unop) [Has Γ a .vSh ⟨s,x⟩] {ty : IRType} (typed : op.type.1 = ty) :
    Yields prims calls env Γ U w (mkUnop ty op a) .vSh ⟨op.type.1,op.eval prims x⟩ :=
  yieldsShadow (unopV op typed)

theorem mkUifUs [Has Γ a .vSh ⟨d,x⟩] [Has Γ b .vSh ⟨d,y⟩] (joins : Joins d) :
    Yields prims calls env Γ U w (mkUifU d a b) .vSh ⟨d,uifU d.bits x y⟩ := by
  cases d with
  | i8 => exact mkBinops (.or .w8) rfl
  | i16 => exact mkBinops (.or .w16) rfl
  | i32 => exact mkBinops (.or .w32) rfl
  | i64 => exact mkBinops (.or .w64) rfl
  | v128 => exact mkBinops (.orV .v128) rfl
  | v256 => exact mkBinops (.orV .v256) rfl
  | _ => cases joins

theorem foldPcast : pcast 64 64 (cut 64 (uifU 128 (concat 64 (v >>> 64) (v >>> 64)) v)) = (pcast 128 64 v : Value) := by
  have fold : cut 64 (uifU 128 (concat 64 (v >>> 64) (v >>> 64)) v) = cut 64 (v ||| v >>> 64) := by
    rw [cutEq]
    intro i low
    have inside : i < 256 := by omega
    have less : i < 128 := by omega
    simp only [uifU,concat,cutBit,BitVec.getLsbD_or,BitVec.getLsbD_shiftLeft,BitVec.getLsbD_ushiftRight,
      decide_eq_true low,decide_eq_true inside,decide_eq_true less,Bool.not_true,Bool.false_and,Bool.and_false,
      Bool.false_or,Bool.and_true,Bool.or_comm]
  have same : cut 64 (cut 64 (v ||| v >>> 64)) = 0 ↔ cut 128 v = 0 := by
    rw [cutTwice]
    exact halvesZero (n := 64)
  rw [fold,pcast,if_congr same rfl rfl,pcast]

theorem mkPCastTos [Has Γ a .vSh ⟨s,v⟩] (from_ : shadowTypeV s = s) (to_ : shadowTypeV d = d) :
    Yields prims calls env Γ U w (mkPCastTo d a) .vSh ⟨d,castV s d v⟩ := by
  refine yieldsShadow (yieldsTypeOf ?_)
  have general : Yields prims calls env Γ U w (do let tmp1 ← collapse s a; spread d tmp1) .vSh ⟨d,castV s d v⟩ :=
    yieldsBind (collapses from_) fun tmp1 => yieldsSame (spreads to_) (congrArg _ castVia)
  cases s with
  | i32 =>
    cases d with
    | i32 => exact unopV (.cmpwNEZ .w32) rfl
    | i64 =>
      refine yieldsBind (unopV (.cmpwNEZ .w32) rfl) fun tmp => ?_
      exact yieldsSame (binopV .iop32HLto64 rfl) (congrArg _ (concatPcast (by decide)))
    | v128 =>
      refine yieldsBind (unopV (.cmpwNEZ .w32) rfl) fun tmp => ?_
      refine yieldsBind (yieldsSame (binopV .iop32HLto64 rfl) (congrArg _ (concatPcast (by decide)))) fun tmp => ?_
      exact yieldsSame (binopV .iop64HLtoV128 rfl) (congrArg _ (concatPcast (by decide)))
    | v256 =>
      refine yieldsBind (unopV (.cmpwNEZ .w32) rfl) fun tmp => ?_
      refine yieldsBind (yieldsSame (binopV .iop32HLto64 rfl) (congrArg _ (concatPcast (by decide)))) fun tmp => ?_
      refine yieldsBind (yieldsSame (binopV .iop64HLtoV128 rfl) (congrArg _ (concatPcast (by decide)))) fun tmp => ?_
      exact yieldsSame (binopV .v128HLtoV256 rfl) (congrArg _ (concatPcast (by decide)))
    | _ => exact general
  | i64 =>
    cases d with
    | i64 => exact unopV (.cmpwNEZ .w64) rfl
    | i32 =>
      refine yieldsBind (unopV (.cmpwNEZ .w64) rfl) fun tmp => ?_
      exact yieldsSame (unopV .iop64to32 rfl) (congrArg _ (cutPcast (by decide)))
    | _ => exact general
  | v128 =>
    cases d with
    | i64 =>
      refine yieldsBind (binopV .interleaveHI64x2 rfl) fun hi64hi64 => ?_
      refine yieldsBind (mkBinops (.orV .v128) rfl) fun lohi64 => ?_
      refine yieldsBind (unopV .v128to64 rfl) fun lo64 => ?_
      exact yieldsSame (unopV (.cmpwNEZ .w64) rfl) (congrArg _ foldPcast)
    | _ => exact general
  | _ => exact general

instance onesHas {w : Width} {kind : TempKind} : Has Γ (allOnes w) kind ⟨widthTy w,ones w.bits⟩ := by
  cases w with
  | w8 => exact hasConst
  | w16 => exact hasConst
  | w32 => exact hasConst
  | w64 => exact hasConst

section
variable {vxx vyy xx yy : IRAtom} {vx vy : Value}

theorem expensiveCmps {t : Width} (wide : t ≠ .w8) [Has Γ vxx .vSh ⟨widthTy t,vx⟩] [Has Γ vyy .vSh ⟨widthTy t,vy⟩]
    [Has Γ xx .orig ⟨widthTy t,x⟩] [Has Γ yy .orig ⟨widthTy t,y⟩] [Kinded vxx xx] [Kinded vyy yy] :
    Yields prims calls env Γ U w (expensiveCmpEQorNE (widthTy t) vxx vyy xx yy) .vSh ⟨.i1,equalV t x y vx vy⟩ := by
  have shadow : shadowTypeV (widthTy t) = widthTy t := by cases t <;> rfl
  refine yieldsPair ?_
  have chosen : cmpWidth (widthTy t) = pure t := by
    cases t with
    | w8 => exact absurd rfl wide
    | _ => rfl
  rw [chosen,pure_bind]
  refine yieldsBind (binopV (.or t) rfl) fun uifu => ?_
  refine yieldsBind (mkPCastTos shadow shadow) fun naive => ?_
  refine yieldsBind (binopV (.or t) rfl) fun v => ?_
  refine yieldsBind (binopV (.xor t) rfl) fun xor => ?_
  refine yieldsBind (unopV (.not t) rfl) fun not => ?_
  refine yieldsBind (binopV (.or t) rfl) fun vec => ?_
  refine yieldsBind (binopV (.cmpEQ t) rfl) fun cmp => ?_
  refine yieldsBind (mkPCastTos rfl shadow) fun improvementTerm => ?_
  refine yieldsBind (binopV (.and t) rfl) fun improved => ?_
  exact mkPCastTos shadow rfl

theorem expensiveSums {t : Width} (wide : t = .w32 ∨ t = .w64) (add : Bool) [Has Γ vxx .vSh ⟨widthTy t,vx⟩]
    [Has Γ vyy .vSh ⟨widthTy t,vy⟩] [Has Γ xx .orig ⟨widthTy t,x⟩] [Has Γ yy .orig ⟨widthTy t,y⟩] [Kinded vxx xx]
    [Kinded vyy yy] : Yields prims calls env Γ U w (expensiveAddSub add (widthTy t) vxx vyy xx yy) .vSh
      ⟨widthTy t,if add then sumUnknown t.bits vx vy x y else differenceUnknown t.bits vx vy x y⟩ := by
  refine yieldsPair ?_
  have chosen : sumWidth (widthTy t) = pure t := by rcases wide with rfl | rfl <;> rfl
  rw [chosen,pure_bind]
  refine yieldsBind (unopV (.not t) rfl) fun notA => ?_
  refine yieldsBind (binopV (.and t) rfl) fun aMin => ?_
  refine yieldsBind (unopV (.not t) rfl) fun notB => ?_
  refine yieldsBind (binopV (.and t) rfl) fun bMin => ?_
  refine yieldsBind (binopV (.or t) rfl) fun aMax => ?_
  refine yieldsBind (binopV (.or t) rfl) fun bMax => ?_
  cases add with
  | true =>
    refine yieldsBind (binopV (.or t) rfl) fun either => ?_
    refine yieldsBind (binopV (.add t) rfl) fun low => ?_
    refine yieldsBind (binopV (.add t) rfl) fun high => ?_
    refine yieldsBind (binopV (.xor t) rfl) fun differ => ?_
    exact binopV (.or t) rfl
  | false =>
    refine yieldsBind (binopV (.or t) rfl) fun either => ?_
    refine yieldsBind (binopV (.sub t) rfl) fun low => ?_
    refine yieldsBind (binopV (.sub t) rfl) fun high => ?_
    refine yieldsBind (binopV (.xor t) rfl) fun differ => ?_
    exact binopV (.or t) rfl

theorem scalarShifts {t : Width} (op : Binop) (typed : op.type.1 = widthTy t) [Has Γ vxx .vSh ⟨widthTy t,vx⟩]
    [Has Γ vyy .vSh ⟨.i8,vy⟩] [Has Γ xx .orig ⟨widthTy t,x⟩] [Has Γ yy .orig ⟨.i8,y⟩] [Kinded vxx xx] [Kinded vyy yy] :
    Yields prims calls env Γ U w (scalarShift (widthTy t) op vxx vyy xx yy) .vSh
      ⟨widthTy t,uifU t.bits (op.eval prims vx y) (castV .i8 (widthTy t) vy)⟩ := by
  have shadow : shadowTypeV (widthTy t) = widthTy t := by cases t <;> rfl
  have joins : Joins (widthTy t) := by cases t <;> trivial
  have bits : (widthTy t).bits = t.bits := by cases t <;> rfl
  refine yieldsPair ?_
  refine yieldsBind (binopV op typed) fun shifted => ?_
  refine yieldsBind (mkPCastTos rfl shadow) fun amount => ?_
  rw [typed,← bits]
  refine yieldsBind (mkUifUs joins) fun either => ?_
  exact atomV rfl

instance wordHas {t : Word} {kind : TempKind} : Has Γ (mkU t 1) kind ⟨t.ty,1⟩ := by
  cases t with
  | w32 => exact hasConst
  | w64 => exact hasConst

instance maskHas {t : Word} {kind : TempKind} : Has Γ (mkU t 6) kind ⟨t.ty,6⟩ := by
  cases t with
  | w32 => exact hasConst
  | w64 => exact hasConst

instance maskAllHas {t : Word} {kind : TempKind} : Has Γ (mkU t 14) kind ⟨t.ty,14⟩ := by
  cases t with
  | w32 => exact hasConst
  | w64 => exact hasConst

instance byteHas {n : Nat} {kind : TempKind} : Has Γ (mkU8 n) kind ⟨.i8,(BitVec.ofNat 8 n).setWidth 256⟩ := hasConst

theorem byteNat {n : Nat} (small : n < 256) : (cut 8 ((BitVec.ofNat 8 n).setWidth 256 : Value)).toNat = n := by
  have same : cut 8 ((BitVec.ofNat 8 n).setWidth 256 : Value) = BitVec.ofNat 256 n := by
    apply BitVec.eq_of_getLsbD_eq
    intro i inside
    rw [cutBit,BitVec.getLsbD_setWidth,BitVec.getLsbD_ofNat,BitVec.getLsbD_ofNat]
    by_cases low : i < 8
    · simp [low,inside]
    · have none_ : n.testBit i = false := Nat.testBit_lt_two_pow (lt_of_lt_of_le small (Nat.pow_le_pow_right (n := 2) (by decide) (Nat.le_of_not_lt low)))
      simp [low,none_]
  rw [same,BitVec.toNat_ofNat,Nat.mod_eq_of_lt (by omega)]

theorem doCmpORDs {t : Word} (syned : Bool) [Has Γ vxx .vSh ⟨t.ty,vx⟩] [Has Γ vyy .vSh ⟨t.ty,vy⟩]
    [Has Γ xx .orig ⟨t.ty,x⟩] [Has Γ yy .orig ⟨t.ty,y⟩] [Paired vxx xx] [second : Paired vyy yy] :
    Expresses prims calls env Γ U w (doCmpORD t syned vxx vyy xx yy) ⟨t.ty,ordV t (syned && isZero t yy) vx vy⟩ := by
  have shadow : shadowTypeV t.ty = t.ty := by cases t <;> rfl
  have joins : Joins t.ty := by cases t <;> trivial
  have bits : t.width.bits = t.ty.bits := by cases t <;> rfl
  have typed : widthTy t.width = t.ty := by cases t <;> rfl
  refine expressesPair ?_
  by_cases zero : syned = true ∧ isZero t yy = true
  · rw [if_pos zero,zero.1,zero.2]
    refine expressesAssert (second.zero t zero.2) ?_
    refine expressesThen (mkPCastTos shadow shadow) fun pcast => ?_
    refine expressesThen (binopV (.and t.width) typed) fun low => ?_
    refine expressesThen (binopV (.shr t.width) typed) fun sign => ?_
    refine expressesThen (binopV (.shl t.width) typed) fun high => ?_
    have value : ordV t (true && true) vx vy = (Binop.or t.width).eval prims ((Binop.and t.width).eval prims (castV t.ty t.ty vx) 6)
        ((Binop.shl t.width).eval prims ((Binop.shr t.width).eval prims vx ((BitVec.ofNat 8 (t.ty.bits - 1)).setWidth 256))
          ((BitVec.ofNat 8 3).setWidth 256)) := by
      have less : t.ty.bits - 1 < 256 := by cases t <;> decide
      simp only [ordV,Binop.eval,bits,byteNat less,byteNat (show 3 < 256 by decide),Bool.and_self,if_true]
    rw [value,← typed]
    exact expressesPure (denotesBinop (.or t.width))
  · rw [if_neg zero]
    have other : (syned && isZero t yy) = false := by
      rw [Bool.and_eq_false_iff]
      by_contra both
      push Not at both
      exact zero ⟨Bool.eq_true_of_not_eq_false both.1,Bool.eq_true_of_not_eq_false both.2⟩
    rw [other]
    refine expressesThen (mkUifUs joins) fun uifu => ?_
    refine expressesThen (mkPCastTos shadow shadow) fun pcast => ?_
    have value : ordV t false vx vy = (Binop.and t.width).eval prims (castV t.ty t.ty (uifU t.ty.bits vx vy)) 14 := by
      simp only [ordV,Binop.eval,bits,Bool.false_eq_true,if_false]
    rw [value,← typed]
    exact expressesPure (denotesBinop (.and t.width))

theorem expensiveTrailing {t : Word} [Has Γ vxx .vSh ⟨t.ty,vx⟩] [Has Γ xx .orig ⟨t.ty,x⟩] [paired : Kinded vxx xx] :
    Yields prims calls env Γ U w (expensiveCountTrailingZeroes t xx vxx) .vSh
      ⟨t.ty,castV t.ty t.ty (difD t.ty.bits vx (cut t.ty.bits (x ^^^ cut t.ty.bits (x - 1))))⟩ := by
  have shadow : shadowTypeV t.ty = t.ty := by cases t <;> rfl
  have bits : t.width.bits = t.ty.bits := by cases t <;> rfl
  have typed : widthTy t.width = t.ty := by cases t <;> rfl
  refine yieldsShadow (yieldsOriginal (yieldsAssert (sameKindedComm.trans paired.same) ?_))
  rw [← bits]
  refine yieldsBind (binopV (.sub t.width) typed) fun less => ?_
  refine yieldsBind (binopV (.xor t.width) typed) fun improver => ?_
  refine yieldsBind (yieldsSame (binopV (.and t.width) typed) (congrArg (Val.mk · _) typed)) fun improved => ?_
  exact mkPCastTos shadow shadow

theorem doAndOrs {n : Nat} {uifu difd improve : IRAtom → IRAtom → Build IRAtom} (imp : Value → Value → Value)
    (uifus : ∀ {Γ a b} {x y : Value} [Has Γ a .vSh ⟨s,x⟩] [Has Γ b .vSh ⟨s,y⟩],
      Yields prims calls env Γ U w (uifu a b) .vSh ⟨s,uifU n x y⟩)
    (difds : ∀ {Γ a b} {x y : Value} [Has Γ a .vSh ⟨s,x⟩] [Has Γ b .vSh ⟨s,y⟩],
      Yields prims calls env Γ U w (difd a b) .vSh ⟨s,difD n x y⟩)
    (improves : ∀ {Γ a va} {x vx : Value} [Has Γ a .orig ⟨s,x⟩] [Has Γ va .vSh ⟨s,vx⟩] [Kinded va a],
      Yields prims calls env Γ U w (improve a va) .vSh ⟨s,imp x vx⟩)
    [Has Γ vxx .vSh ⟨s,vx⟩] [Has Γ vyy .vSh ⟨s,vy⟩] [Has Γ xx .orig ⟨s,x⟩] [Has Γ yy .orig ⟨s,y⟩]
    [Kinded vxx xx] [Kinded vyy yy] : Yields prims calls env Γ U w (doAndOr s uifu difd improve vxx vyy xx yy) .vSh
      ⟨s,difD n (uifU n vx vy) (difD n (imp x vx) (imp y vy))⟩ := by
  refine yieldsBind uifus fun either => ?_
  refine yieldsBind improves fun first => ?_
  refine yieldsBind improves fun second => ?_
  refine yieldsBind difds fun both => ?_
  refine yieldsBind difds fun all => ?_
  exact atomV rfl

theorem mkImproveANDs (op : Binop) {va : IRAtom} [Has Γ a .orig ⟨s,x⟩] [Has Γ va .vSh ⟨d,vx⟩] [paired : Kinded va a]
    {ty : IRType} (typed : op.type.1 = ty) :
    Yields prims calls env Γ U w (mkImproveAND ty op a va) .vSh ⟨op.type.1,op.eval prims x vx⟩ := by
  rw [mkImproveAND,assertImproves]
  simp only [bind_assoc]
  exact yieldsOriginal (yieldsShadow (yieldsAssert (sameKindedComm.trans paired.same) (binopV op typed)))

theorem mkImproveORs (op : Binop) (opNOT : Unop) {va : IRAtom} [Has Γ a .orig ⟨s,x⟩] [Has Γ va .vSh ⟨d,vx⟩]
    [paired : Kinded va a] {ty : IRType} (typed : op.type.1 = ty) (typedNot : opNOT.type.1 = ty) :
    Yields prims calls env Γ U w (mkImproveOR ty op opNOT a va) .vSh
      ⟨op.type.1,op.eval prims (opNOT.eval prims x) vx⟩ := by
  rw [mkImproveOR,assertImproves]
  simp only [bind_assoc]
  refine yieldsOriginal (yieldsShadow (yieldsAssert (sameKindedComm.trans paired.same) ?_))
  refine yieldsBind (unopV opNOT typedNot) fun not => ?_
  exact binopV op typed

theorem ands {t : Width} [Has Γ vxx .vSh ⟨widthTy t,vx⟩] [Has Γ vyy .vSh ⟨widthTy t,vy⟩]
    [Has Γ xx .orig ⟨widthTy t,x⟩] [Has Γ yy .orig ⟨widthTy t,y⟩] [Kinded vxx xx] [Kinded vyy yy] :
    Yields prims calls env Γ U w (doAndOr (widthTy t) (mkBinop (widthTy t) (.or t)) (mkBinop (widthTy t) (.and t))
      (mkImproveAND (widthTy t) (.or t)) vxx vyy xx yy) .vSh ⟨widthTy t,andV t.bits x y vx vy⟩ :=
  doAndOrs (fun x vx => cut t.bits (x ||| vx)) (mkBinops (.or t) rfl) (mkBinops (.and t) rfl)
    (mkImproveANDs (.or t) rfl)

theorem ors {t : Width} [Has Γ vxx .vSh ⟨widthTy t,vx⟩] [Has Γ vyy .vSh ⟨widthTy t,vy⟩]
    [Has Γ xx .orig ⟨widthTy t,x⟩] [Has Γ yy .orig ⟨widthTy t,y⟩] [Kinded vxx xx] [Kinded vyy yy] :
    Yields prims calls env Γ U w (doAndOr (widthTy t) (mkBinop (widthTy t) (.or t)) (mkBinop (widthTy t) (.and t))
      (mkImproveOR (widthTy t) (.or t) (.not t)) vxx vyy xx yy) .vSh ⟨widthTy t,orV t.bits x y vx vy⟩ :=
  doAndOrs (fun x vx => cut t.bits (cut t.bits (~~~x) ||| vx)) (mkBinops (.or t) rfl) (mkBinops (.and t) rfl)
    (mkImproveORs (.or t) (.not t) rfl rfl)

theorem andsV {t : Vec} [Has Γ vxx .vSh ⟨t.ty,vx⟩] [Has Γ vyy .vSh ⟨t.ty,vy⟩] [Has Γ xx .orig ⟨t.ty,x⟩]
    [Has Γ yy .orig ⟨t.ty,y⟩] [Kinded vxx xx] [Kinded vyy yy] :
    Yields prims calls env Γ U w (doAndOr t.ty (mkBinop t.ty (.orV t)) (mkBinop t.ty (.andV t))
      (mkImproveAND t.ty (.orV t)) vxx vyy xx yy) .vSh ⟨t.ty,andV t.ty.bits x y vx vy⟩ :=
  doAndOrs (fun x vx => cut t.ty.bits (x ||| vx)) (mkBinops (.orV t) rfl) (mkBinops (.andV t) rfl)
    (mkImproveANDs (.orV t) rfl)

theorem orsV {t : Vec} [Has Γ vxx .vSh ⟨t.ty,vx⟩] [Has Γ vyy .vSh ⟨t.ty,vy⟩] [Has Γ xx .orig ⟨t.ty,x⟩]
    [Has Γ yy .orig ⟨t.ty,y⟩] [Kinded vxx xx] [Kinded vyy yy] :
    Yields prims calls env Γ U w (doAndOr t.ty (mkBinop t.ty (.orV t)) (mkBinop t.ty (.andV t))
      (mkImproveOR t.ty (.orV t) (.notV t)) vxx vyy xx yy) .vSh ⟨t.ty,orV t.ty.bits x y vx vy⟩ :=
  doAndOrs (fun x vx => cut t.ty.bits (cut t.ty.bits (~~~x) ||| vx)) (mkBinops (.orV t) rfl) (mkBinops (.andV t) rfl)
    (mkImproveORs (.orV t) (.notV t) rfl rfl)

theorem cheapSums {t : Width} [Has Γ vxx .vSh ⟨widthTy t,vx⟩] [Has Γ vyy .vSh ⟨widthTy t,vy⟩] :
    Yields prims calls env Γ U w (cheapAddSub t vxx vyy) .vSh ⟨widthTy t,leftV t vx vy⟩ := by
  cases t with
  | w8 => exact yieldsBind (mkBinops (.or .w8) rfl) fun either => mkUnops (.left .w8) rfl
  | w16 => exact yieldsBind (mkBinops (.or .w16) rfl) fun either => mkUnops (.left .w16) rfl
  | w32 => exact yieldsBind (mkBinops (.or .w32) rfl) fun either => mkUnops (.left .w32) rfl
  | w64 => exact yieldsBind (mkBinops (.or .w64) rfl) fun either => mkUnops (.left .w64) rfl

theorem cheapCmps {t : Width} [Has Γ vxx .vSh ⟨widthTy t,vx⟩] [Has Γ vyy .vSh ⟨widthTy t,vy⟩] :
    Yields prims calls env Γ U w (cheapCmp (widthTy t) vxx vyy) .vSh ⟨.i1,cmpV t vx vy⟩ := by
  have shadow : shadowTypeV (widthTy t) = widthTy t := by cases t <;> rfl
  have joins : Joins (widthTy t) := by cases t <;> trivial
  have bits : (widthTy t).bits = t.bits := by cases t <;> rfl
  rw [cmpV,← bits]
  exact yieldsBind (mkUifUs joins) fun either => mkPCastTos shadow rfl

theorem mulls {t : Width} {op : Binop} (typed : op.type.1 = twice t) (halves : ∀ x y, op.eval prims x y = concat t.bits x y)
    [Has Γ vxx .vSh ⟨widthTy t,vx⟩] [Has Γ vyy .vSh ⟨widthTy t,vy⟩] :
    Yields prims calls env Γ U w (mullVbits t op vxx vyy) .vSh ⟨twice t,mullV t vx vy⟩ := by
  have shadow : shadowTypeV (widthTy t) = widthTy t := by cases t <;> rfl
  refine yieldsBind cheapSums fun vLo => ?_
  refine yieldsBind (mkPCastTos shadow shadow) fun vHi => ?_
  rw [mullV,← halves,← typed]
  exact binopV op rfl

end

/- Where the parts are untainted the whole is, and it is tainted altogether where one is not. -/
theorem lazyPcast {k : Nat} {z : Value} {operands : List Val}
    (same : cut k z = 0 ↔ ∀ u ∈ operands, cut u.ty.bits u.bits = 0) : pcast k d.bits z = lazyV d operands := by
  rw [pcast,lazyV,if_congr same rfl rfl]

theorem lazyCast {operands : List Val} (plain : s ≠ .i1) (same : cut s.bits v = 0 ↔ ∀ u ∈ operands, cut u.ty.bits u.bits = 0) :
    castV s d v = lazyV d operands := by
  rw [castPlain (.inl plain),lazyPcast same]

section
variable {va1 va2 va3 : IRAtom} {v1 v2 v3 : Value} {f : IRType}

theorem mkLazy2s [Has Γ va1 .vSh ⟨s,v1⟩] [Has Γ va2 .vSh ⟨d,v2⟩] (shadow1 : shadowTypeV s = s) (shadow2 : shadowTypeV d = d)
    (to_ : shadowTypeV f = f) :
    Yields prims calls env Γ U w (mkLazy2 f va1 va2) .vSh ⟨f,lazyV f [⟨s,v1⟩,⟨d,v2⟩]⟩ := by
  refine yieldsTypeOf (yieldsTypeOf (yieldsShadow (yieldsShadow ?_)))
  have general : Yields prims calls env Γ U w (do
      let at1 ← mkPCastTo .i32 va1
      let at2 ← mkPCastTo .i32 va2
      let at_ ← mkUifU .i32 at1 at2
      mkPCastTo f at_) .vSh ⟨f,lazyV f [⟨s,v1⟩,⟨d,v2⟩]⟩ := by
    refine yieldsBind (mkPCastTos shadow1 rfl) fun at1 => ?_
    refine yieldsBind (mkPCastTos shadow2 rfl) fun at2 => ?_
    refine yieldsBind (mkUifUs trivial) fun at_ => ?_
    refine yieldsSame (mkPCastTos rfl to_) (congrArg _ (lazyCast (by decide) ?_))
    rw [uifUZero,castZero,castZero]
    simp
  have word (to_ : shadowTypeV f = f) (same : s = .i64 ∧ d = .i64) : Yields prims calls env Γ U w (do
      let at_ ← mkUifU .i64 va1 va2
      mkPCastTo f at_) .vSh ⟨f,lazyV f [⟨s,v1⟩,⟨d,v2⟩]⟩ := by
    obtain ⟨rfl,rfl⟩ := same
    refine yieldsBind (mkUifUs trivial) fun at_ => ?_
    refine yieldsSame (mkPCastTos rfl to_) (congrArg _ (lazyCast (by decide) ?_))
    rw [uifUZero]
    simp [IRType.bits]
  split
  · next first second => exact word rfl ⟨first,second⟩
  · next first second => exact word rfl ⟨first,second⟩
  · exact general

theorem mkLazy3Words [Has Γ va1 .vSh ⟨.i32,v1⟩] [Has Γ va2 .vSh ⟨.i64,v2⟩] [Has Γ va3 .vSh ⟨.i64,v3⟩]
    (to_ : f = .i64 ∨ f = .i32) :
    Yields prims calls env Γ U w (mkLazy3 f va1 va2 va3) .vSh ⟨f,lazyV f [⟨.i32,v1⟩,⟨.i64,v2⟩,⟨.i64,v3⟩]⟩ := by
  refine yieldsTypeOf (yieldsTypeOf (yieldsTypeOf (yieldsShadow (yieldsShadow (yieldsShadow ?_)))))
  have chain (shadow : shadowTypeV f = f) : Yields prims calls env Γ U w (do
      let at_ ← mkPCastTo .i64 va1
      let at_ ← mkUifU .i64 at_ va2
      let at_ ← mkUifU .i64 at_ va3
      mkPCastTo f at_) .vSh ⟨f,lazyV f [⟨.i32,v1⟩,⟨.i64,v2⟩,⟨.i64,v3⟩]⟩ := by
    refine yieldsBind (mkPCastTos rfl rfl) fun at_ => ?_
    refine yieldsBind (mkUifUs trivial) fun at_ => ?_
    refine yieldsBind (mkUifUs trivial) fun at_ => ?_
    refine yieldsSame (mkPCastTos rfl shadow) (congrArg _ (lazyCast (by decide) ?_))
    rw [uifUZero,uifUZero,castZero]
    simp [IRType.bits,and_assoc]
  rcases to_ with rfl | rfl
  · exact chain rfl
  · exact chain rfl

theorem mkLazy3Floats [Has Γ va1 .vSh ⟨.i32,v1⟩] [Has Γ va2 .vSh ⟨.i32,v2⟩] [Has Γ va3 .vSh ⟨.i32,v3⟩] :
    Yields prims calls env Γ U w (mkLazy3 .i32 va1 va2 va3) .vSh ⟨.i32,lazyV .i32 [⟨.i32,v1⟩,⟨.i32,v2⟩,⟨.i32,v3⟩]⟩ := by
  refine yieldsTypeOf (yieldsTypeOf (yieldsTypeOf (yieldsShadow (yieldsShadow (yieldsShadow ?_)))))
  refine yieldsBind (mkUifUs trivial) fun at_ => ?_
  refine yieldsBind (mkUifUs trivial) fun at_ => ?_
  refine yieldsSame (mkPCastTos rfl rfl) (congrArg _ (lazyCast (by decide) ?_))
  rw [uifUZero,uifUZero]
  simp [IRType.bits,and_assoc]

end

theorem expr2vbitsUnops {op : Unop} (guest : GuestUnop op) [Has Γ a .orig ⟨op.type.2,x⟩]
    [HasShadow Γ a ⟨shadowTypeV op.type.2,v⟩] :
    Yields prims calls env Γ U w (expr2vbitsUnop op a) .vSh ⟨shadowTypeV op.type.1,vbitsUnop prims op x v⟩ := by
  refine yieldsAtom2vbits fun vatom _ => yieldsOriginal ?_
  cases op with
  | f32toF64 | i32StoF64 | i32UtoF64 | negF64 | absF64 | negF32 | absF32 => exact mkPCastTos rfl rfl
  | clz t | cmpwNEZ t =>
    cases t with
    | w32 => exact mkPCastTos rfl rfl
    | w64 => exact mkPCastTos rfl rfl
  | ctz t =>
    cases t with
    | w32 => exact expensiveTrailing
    | w64 => exact expensiveTrailing
  | reinterpF64asI64 | reinterpI64asF64 | reinterpI32asF32 | reinterpF32asI32 | not1 => exact yieldsPure
  | not t =>
    cases t with
    | w8 => exact yieldsPure
    | w16 => exact yieldsPure
    | w32 => exact yieldsPure
    | w64 => exact yieldsPure
  | notV t =>
    cases t with
    | v128 => exact yieldsPure
    | v256 => exact yieldsPure
  | left t => cases guest
  | cmpNEZ t => cases guest
  | iop1Sto16 => cases guest
  | _ => exact unopV _ rfl

section
variable {atom1 atom2 atom3 va1 va2 : IRAtom} {vx vy vz : Value}

theorem sumExprs {t : Width} (wide : t = .w32 ∨ t = .w64) (add : Bool) (exact_ : Prop) [Decidable exact_]
    [Has Γ va1 .vSh ⟨widthTy t,vx⟩] [Has Γ va2 .vSh ⟨widthTy t,vy⟩] [Has Γ atom1 .orig ⟨widthTy t,x⟩]
    [Has Γ atom2 .orig ⟨widthTy t,y⟩] [Kinded va1 atom1] [Kinded va2 atom2] :
    Expresses prims calls env Γ U w (if exact_ then .atom <$> expensiveAddSub add (widthTy t) va1 va2 atom1 atom2
      else .atom <$> cheapAddSub t va1 va2) ⟨widthTy t,if exact_ then
        if add then sumUnknown t.bits vx vy x y else differenceUnknown t.bits vx vy x y else leftV t vx vy⟩ := by
  by_cases exactly : exact_
  · rw [if_pos exactly,if_pos exactly]
    exact expressesYields (expensiveSums wide add)
  · rw [if_neg exactly,if_neg exactly]
    exact expressesYields cheapSums

theorem cmpExprs {t : Width} (wide : t ≠ .w8) (exact_ : Prop) [Decidable exact_]
    [Has Γ va1 .vSh ⟨widthTy t,vx⟩] [Has Γ va2 .vSh ⟨widthTy t,vy⟩] [Has Γ atom1 .orig ⟨widthTy t,x⟩]
    [Has Γ atom2 .orig ⟨widthTy t,y⟩] [Kinded va1 atom1] [Kinded va2 atom2] :
    Expresses prims calls env Γ U w (if exact_ then .atom <$> expensiveCmpEQorNE (widthTy t) va1 va2 atom1 atom2
      else .atom <$> cheapCmp (widthTy t) va1 va2) ⟨.i1,if exact_ then equalV t x y vx vy else cmpV t vx vy⟩ := by
  by_cases exactly : exact_
  · rw [if_pos exactly,if_pos exactly]
    exact expressesYields (expensiveCmps wide)
  · rw [if_neg exactly,if_neg exactly]
    exact expressesYields cheapCmps

theorem expr2vbitsBinops {op : Binop} (guest : GuestBinop op) [Has Γ atom1 .orig ⟨op.type.2.1,x⟩]
    [Has Γ atom2 .orig ⟨op.type.2.2,y⟩] [HasShadow Γ atom1 ⟨shadowTypeV op.type.2.1,vx⟩]
    [HasShadow Γ atom2 ⟨shadowTypeV op.type.2.2,vy⟩] :
    Expresses prims calls env Γ U w (expr2vbitsBinop op atom1 atom2)
      ⟨shadowTypeV op.type.1,vbitsBinop prims env op (literalZero op atom2) x y vx vy⟩ := by
  refine expressesAtom2vbits fun vatom1 _ => expressesAtom2vbits fun vatom2 _ => expressesPair ?_
  refine expressesGet fun mce same => ?_
  rw [same]
  cases op with
  | divMod64to32 | divMod128to64 | sad8Ux4 | qAdd32S | qSub32S | cmpF64 | f64toI32S | f64toF32 | sqrtF64 |
      roundF64toInt | f64toI64S | i64StoF64 => exact expressesYields (mkLazy2s rfl rfl rfl)
  | div t | divE t =>
    cases t with
    | w32 => exact expressesYields (mkLazy2s rfl rfl rfl)
    | w64 => exact expressesYields (mkLazy2s rfl rfl rfl)
  | iop8HLto16 | iop16HLto32 | iop32HLto64 | iop64HLto128 | iop64HLtoV128 | v128HLtoV256 | interleaveHI64x2 =>
    exact expressesYields (binopV _ rfl)
  | divModS64to64 => exact expressesYields (mulls rfl fun _ _ => rfl)
  | mull t =>
    cases t with
    | w8 => exact expressesYields (mulls (t := .w8) rfl fun _ _ => rfl)
    | w16 => exact expressesYields (mulls (t := .w16) rfl fun _ _ => rfl)
    | w32 => exact expressesYields (mulls (t := .w32) rfl fun _ _ => rfl)
    | w64 => exact expressesYields (mulls (t := .w64) rfl fun _ _ => rfl)
  | add t =>
    cases t with
    | w8 => exact expressesYields cheapSums
    | w16 => exact expressesYields cheapSums
    | w32 => exact expressesSame (sumExprs (.inl rfl) true _) (by simp [vbitsBinop,Binop.type,widthTy,shadowTypeV])
    | w64 => exact expressesSame (sumExprs (.inr rfl) true _) (by simp [vbitsBinop,Binop.type,widthTy,shadowTypeV])
  | sub t =>
    cases t with
    | w8 => exact expressesYields cheapSums
    | w16 => exact expressesYields cheapSums
    | w32 => exact expressesSame (sumExprs (.inl rfl) false _) (by simp [vbitsBinop,Binop.type,widthTy,shadowTypeV])
    | w64 => exact expressesSame (sumExprs (.inr rfl) false _) (by simp [vbitsBinop,Binop.type,widthTy,shadowTypeV])
  | mul t =>
    cases t with
    | w8 => exact expressesYields cheapSums
    | w16 => exact expressesYields cheapSums
    | w32 => exact expressesYields cheapSums
    | w64 => exact expressesYields cheapSums
  | cmpORD t syned =>
    cases t with
    | w32 => exact doCmpORDs (t := .w32) syned
    | w64 => exact doCmpORDs (t := .w64) syned
  | cmpEQ t | cmpNE t =>
    cases t with
    | w8 => exact expressesYields (cheapCmps (t := .w8))
    | w16 => exact expressesYields (cheapCmps (t := .w16))
    | w32 => exact expressesSame (cmpExprs (t := .w32) (by decide) _) (by simp [vbitsBinop,Binop.type,shadowTypeV])
    | w64 => exact expressesSame (cmpExprs (t := .w64) (by decide) _) (by simp [vbitsBinop,Binop.type,shadowTypeV])
  | expCmpNE t =>
    cases t with
    | w8 => cases guest
    | w16 => exact expressesYields (expensiveCmps (t := .w16) (by decide))
    | w32 => exact expressesYields (expensiveCmps (t := .w32) (by decide))
    | w64 => exact expressesYields (expensiveCmps (t := .w64) (by decide))
  | cmpLT t | cmpLE t =>
    cases t with
    | w32 => exact expressesYields (cheapCmps (t := .w32))
    | w64 => exact expressesYields (cheapCmps (t := .w64))
  | casCmpEQ t | casCmpNE t => exact expressesYields (atomV rfl)
  | shl t | shr t | sar t =>
    cases t with
    | w8 => exact expressesYields (scalarShifts (t := .w8) _ rfl)
    | w16 => exact expressesYields (scalarShifts (t := .w16) _ rfl)
    | w32 => exact expressesYields (scalarShifts (t := .w32) _ rfl)
    | w64 => exact expressesYields (scalarShifts (t := .w64) _ rfl)
  | and t =>
    cases t with
    | w8 => exact expressesYields (ands (t := .w8))
    | w16 => exact expressesYields (ands (t := .w16))
    | w32 => exact expressesYields (ands (t := .w32))
    | w64 => exact expressesYields (ands (t := .w64))
  | or t =>
    cases t with
    | w8 => exact expressesYields (ors (t := .w8))
    | w16 => exact expressesYields (ors (t := .w16))
    | w32 => exact expressesYields (ors (t := .w32))
    | w64 => exact expressesYields (ors (t := .w64))
  | andV t =>
    cases t with
    | v128 => exact expressesYields (andsV (t := .v128))
    | v256 => exact expressesYields (andsV (t := .v256))
  | orV t =>
    cases t with
    | v128 => exact expressesYields (orsV (t := .v128))
    | v256 => exact expressesYields (orsV (t := .v256))
  | xor t =>
    cases t with
    | w8 => exact expressesYields (mkBinops (.or .w8) rfl)
    | w16 => exact expressesYields (mkBinops (.or .w16) rfl)
    | w32 => exact expressesYields (mkBinops (.or .w32) rfl)
    | w64 => exact expressesYields (mkBinops (.or .w64) rfl)
  | xorV t =>
    cases t with
    | v128 => exact expressesYields (mkBinops (.orV .v128) rfl)
    | v256 => exact expressesYields (mkBinops (.orV .v256) rfl)

theorem expr2vbitsTriops {op : Triop} (guest : GuestTriop op) [Has Γ atom1 .orig ⟨op.type.2.1,x⟩]
    [Has Γ atom2 .orig ⟨op.type.2.2.1,y⟩] {z : Value} [Has Γ atom3 .orig ⟨op.type.2.2.2,z⟩]
    [HasShadow Γ atom1 ⟨shadowTypeV op.type.2.1,vx⟩] [HasShadow Γ atom2 ⟨shadowTypeV op.type.2.2.1,vy⟩]
    [HasShadow Γ atom3 ⟨shadowTypeV op.type.2.2.2,vz⟩] :
    Yields prims calls env Γ U w (expr2vbitsTriop op atom1 atom2 atom3) .vSh
      ⟨shadowTypeV op.type.1,vbitsTriop op vx vy vz⟩ := by
  refine yieldsAtom2vbits fun vatom1 _ => yieldsAtom2vbits fun vatom2 _ => yieldsAtom2vbits fun vatom3 third => ?_
  refine yieldsPair (yieldsShadow (yieldsOriginal (yieldsAssert (sameKindedComm.trans third.same) ?_)))
  cases op with
  | addF128 => cases guest
  | addF64 | subF64 | mulF64 | divF64 | pRemF64 => exact mkLazy3Words (.inl rfl)
  | pRemC3210F64 => exact mkLazy3Words (.inr rfl)
  | addF32 | subF32 | mulF32 | divF32 => exact mkLazy3Floats

end

end

end Autonomizer.Emitted
