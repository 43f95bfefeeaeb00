import Mathlib
import Autonomizer.Emitted

/-! No bit that is called untainted depends on a tainted one: whatever the tainted bits of the
operands are, it comes out the same. The exceptions are the comparisons for a compare-and-swap,
which are never tainted, and a division that is tainted as a product is. Of the costly sums and
differences no other bit is called tainted. -/
namespace Autonomizer.Sound
open Bits Emitted Propagation ShadowRuns Shadows Translate Typed VexIR

section
variable {m n : Nat} {v vx vy x x' y y' : Value} {f : Value → Value} {g : Value → Value → Value}

theorem widthTyBits (w : Width) : (widthTy w).bits = w.bits := by
  cases w <;> rfl

theorem shadowBits (ty : IRType) : (shadowTypeV ty).bits = ty.bits := by
  cases ty <;> rfl

theorem widthFits (w : Width) : w.bits ≤ 64 := by
  cases w <;> decide

theorem widthSome (w : Width) : 0 < w.bits := by
  cases w <;> decide

theorem bitZero (known : v.getLsbD 0 = false) : cut 1 v = 0 := by
  refine cutZero.mpr fun i low => ?_
  obtain rfl : i = 0 := by omega
  exact known

theorem sextSame (some_ : 0 < n) (same : cut n x = cut n x') : sext n x = sext n x' := by
  apply BitVec.eq_of_getLsbD_eq
  intro i inside
  rw [sextBit inside,sextBit inside]
  split
  · exact cutEq.mp same i ‹_›
  · exact cutEq.mp same (n - 1) (by omega)

theorem agreeCast {s d : IRType} (wide : s ≠ .i1) (depends : ∀ x x', cut s.bits x = cut s.bits x' → f x = f x')
    (agree : Agree s.bits v x x') : Agree d.bits (castV s d v) (f x) (f x') := by
  intro i low known
  rw [castPlain (.inl wide)] at known
  rw [depends x x' (agreeKnown ((pcastBit (bitsFit d) low).mp known) agree)]

theorem lazyKnown {d : IRType} {operands : List Val} {i : Nat} (low : i < d.bits)
    (known : (lazyV d operands).getLsbD i = false) : ∀ o ∈ operands, cut o.ty.bits o.bits = 0 := by
  unfold lazyV at known
  split at known
  · assumption
  · have inside : i < 256 := low.trans_le (bitsFit d)
    rw [onesBit,decide_eq_true inside,decide_eq_true low] at known
    cases known

theorem agreeLazy {d s t : IRType} (depends : ∀ x x' y y', cut s.bits x = cut s.bits x' →
      cut t.bits y = cut t.bits y' → g x y = g x' y')
    (first : Agree s.bits vx x x') (second : Agree t.bits vy y y') :
    Agree d.bits (lazyV d [⟨s,vx⟩,⟨t,vy⟩]) (g x y) (g x' y') := by
  intro i low known
  have none_ := lazyKnown low known
  have noneX : cut s.bits vx = 0 := none_ ⟨s,vx⟩ List.mem_cons_self
  have noneY : cut t.bits vy = 0 := none_ ⟨t,vy⟩ (List.mem_cons_of_mem _ List.mem_cons_self)
  rw [depends x x' y y' (agreeKnown noneX first) (agreeKnown noneY second)]

theorem agreeZext {k : Nat} (inside : k ≤ n) (agree : Agree n v x x') : Agree m (cut k v) (cut k x) (cut k x') := by
  intro i _ known
  rw [cutBit] at known
  rw [cutBit,cutBit]
  by_cases low : i < k
  · rw [decide_eq_true low,Bool.and_true] at known
    rw [agree i (by omega) known]
  · rw [decide_eq_false low,Bool.and_false,Bool.and_false]

theorem agreeDown {k s : Nat} (inside : s + k ≤ n) (agree : Agree n v x x') :
    Agree k (v >>> s) (x >>> s) (x' >>> s) := by
  intro i low known
  rw [BitVec.getLsbD_ushiftRight] at known
  rw [BitVec.getLsbD_ushiftRight,BitVec.getLsbD_ushiftRight,agree (s + i) (by omega) known]

theorem agreeSext {k : Nat} (fits : n ≤ 256) (some_ : 0 < k) (agree : Agree k v x x') :
    Agree n (cut n (sext k v)) (cut n (sext k x)) (cut n (sext k x')) := by
  refine agreeCut.mpr fun i low known => ?_
  rw [cutBit,decide_eq_true low,Bool.and_true,sextBit (by omega)] at known
  rw [sextBit (by omega),sextBit (by omega)]
  split at known
  · rename_i below
    rw [if_pos below,if_pos below,agree i below known]
  · rename_i above
    rw [if_neg above,if_neg above,agree (k - 1) (by omega) known]

theorem concatBit {i : Nat} (fits : 2 * n ≤ 256) (low : i < 2 * n) :
    (concat n x y).getLsbD i = if i < n then y.getLsbD i else x.getLsbD (i - n) := by
  have inside : i < 256 := by omega
  rw [concat,BitVec.getLsbD_or,BitVec.getLsbD_shiftLeft,cutBit,cutBit,decide_eq_true inside]
  by_cases below : i < n
  · simp [below]
  · have above : i - n < n := by omega
    simp [below,above]

theorem agreeConcat (fits : 2 * n ≤ 256) (first : Agree n vx x x') (second : Agree n vy y y') :
    Agree (2 * n) (concat n vx vy) (concat n x y) (concat n x' y') := by
  intro i low known
  rw [concatBit fits low] at known
  rw [concatBit fits low,concatBit fits low]
  split at known
  · rename_i below
    rw [if_pos below,if_pos below,second i below known]
  · rename_i above
    rw [if_neg above,if_neg above,first (i - n) (by omega) known]

theorem findSame {p q : Nat → Bool} (same : ∀ i < n, (∀ j < i, p j = false) → p i = q i) :
    (List.range n).find? p = (List.range n).find? q := by
  induction n with
  | zero => rfl
  | succ n ih =>
    rw [List.range_succ,List.find?_append,List.find?_append,← ih fun i low => same i (by omega)]
    cases found : (List.range n).find? p with
    | some j => rfl
    | none =>
      have clear (j : Nat) (below : j < n) : p j = false :=
        Bool.eq_false_of_not_eq_true (List.find?_eq_none.mp found j (List.mem_range.mpr below))
      rw [List.find?_cons,List.find?_cons,same n (by omega) clear]
      rfl

theorem leadingSame (same : cut n x = cut n x') : leading n x = leading n x' := by
  rw [leading,leading,findSame fun i low _ => cutEq.mp same (n - 1 - i) (by omega)]

theorem improverBit {i : Nat} (inside : i < 256) :
    (x ^^^ (x - 1)).getLsbD i = decide (∀ j < i, x.getLsbD j = false) := by
  have less : x - 1 = ~~~(-x) := (BitVec.not_neg x).symm
  rw [less,BitVec.getLsbD_xor,BitVec.getLsbD_not,BitVec.getLsbD_neg,decide_eq_true inside]
  by_cases earlier : ∃ j < i, x.getLsbD j = true
  · have some_ : ¬ ∀ j < i, x.getLsbD j = false := by
      obtain ⟨j,below,set⟩ := earlier
      intro none_
      rw [none_ j below] at set
      cases set
    rw [decide_eq_true earlier,decide_eq_false some_]
    cases x.getLsbD i <;> rfl
  · have none_ (j : Nat) (below : j < i) : x.getLsbD j = false :=
      Bool.eq_false_of_not_eq_true fun set => earlier ⟨j,below,set⟩
    rw [decide_eq_false earlier,decide_eq_true none_]
    cases x.getLsbD i <;> rfl

theorem trailingSame {d : IRType} (wide : d ≠ .i1)
    (agree : Agree d.bits v x x') (i : Nat) (low : i < d.bits)
    (known : (castV d d (difD d.bits v (cut d.bits (x ^^^ cut d.bits (x - 1))))).getLsbD i = false) :
    trailing d.bits x = trailing d.bits x' := by
  rw [castPlain (.inl wide),pcastBit (bitsFit d) low] at known
  have fits := bitsFit d
  rw [trailing,trailing,findSame fun j below first => agree j below ?_]
  have bit := cutZero.mp known j below
  have improver : (x ^^^ (x - 1)).getLsbD j = true := by
    rw [improverBit (by omega),decide_eq_true first]
  rw [BitVec.getLsbD_xor] at improver
  rwa [difD,cutBit,BitVec.getLsbD_and,cutBit,BitVec.getLsbD_xor,cutBit,decide_eq_true below,Bool.and_true,
    Bool.and_true,Bool.and_true,improver,Bool.and_true] at bit

theorem agreeUnop (prims : Prims) (op : Unop) (wide : shadowTypeV op.type.2 ≠ .i1)
    (prim : ∀ z, op.eval prims z = prims.unop op (cut op.type.2.bits z)) (agree : Agree op.type.2.bits v x x') :
    Agree op.type.1.bits (castV (shadowTypeV op.type.2) (shadowTypeV op.type.1) v) (op.eval prims x)
      (op.eval prims x') := by
  rw [← shadowBits op.type.2] at agree prim
  rw [← shadowBits op.type.1]
  refine agreeCast wide (fun z z' same => ?_) agree
  rw [prim,prim,same]

theorem unopSound (prims : Prims) {op : Unop} (guest : GuestUnop op) (agree : Agree op.type.2.bits v x x') :
    Agree op.type.1.bits (vbitsUnop prims op x v) (op.eval prims x) (op.eval prims x') := by
  cases op with
  | f32toF64 | i32StoF64 | i32UtoF64 | negF64 | absF64 | negF32 | absF32 =>
    exact agreeUnop prims _ (by decide) (fun _ => rfl) agree
  | clz t =>
    have depends (z z' : Value) (same : cut t.ty.bits z = cut t.ty.bits z') :
        Unop.eval prims (.clz t) z = Unop.eval prims (.clz t) z' :=
      congrArg (BitVec.ofNat 256) (leadingSame same)
    cases t <;> exact agreeCast (by decide) depends agree
  | cmpwNEZ t =>
    have depends (z z' : Value) (same : cut t.ty.bits z = cut t.ty.bits z') :
        Unop.eval prims (.cmpwNEZ t) z = Unop.eval prims (.cmpwNEZ t) z' := by
      rw [Unop.eval,Unop.eval,pcast,pcast,same]
    cases t <;> exact agreeCast (by decide) depends agree
  | ctz t =>
    intro i low known
    have wide : t.ty ≠ .i1 := by cases t <;> decide
    rw [Unop.eval,Unop.eval,trailingSame wide agree i low known]
  | reinterpF64asI64 | reinterpI64asF64 | reinterpI32asF32 | reinterpF32asI32 => exact agreeCut.mpr agree
  | not1 => exact agreeCut.mpr (agreeNot agree)
  | not w => cases w <;> exact agreeCut.mpr (agreeNot agree)
  | notV t => cases t <;> exact agreeCut.mpr (agreeNot agree)
  | iop1Uto8 | iop1Uto32 | iop1Uto64 | iop8Uto16 | iop8Uto32 | iop8Uto64 | iop16Uto32 | iop16Uto64 | iop32Uto64 |
      iop64to1 | iop32to1 | iop64to8 | iop32to8 | iop16to8 | iop64to16 | iop32to16 | iop64to32 | iop128to64 |
      v128to32 | v128to64 | v256to64_0 | v256toV128_0 | iop32UtoV128 | iop64UtoV128 =>
    exact agreeZext (by decide) agree
  | iop16HIto8 | iop32HIto16 | iop64HIto32 | iop128HIto64 | v128HIto64 | v256to64_1 | v256to64_2 | v256to64_3 |
      v256toV128_1 => exact agreeZext (le_refl _) (agreeDown (by decide) agree)
  | iop1Sto8 | iop1Sto32 | iop1Sto64 | iop8Sto16 | iop8Sto32 | iop8Sto64 | iop16Sto32 | iop16Sto64 | iop32Sto64 =>
    exact agreeSext (by decide) (by decide) agree
  | iop1Sto16 | left _ | cmpNEZ _ => exact guest.elim

end

section
variable {n : Nat} {w : Width} {vx vy x x' y y' : Value} {g : Value → Value → Value}

theorem agreeCmp (depends : ∀ x x' y y', cut w.bits x = cut w.bits x' → cut w.bits y = cut w.bits y' →
      g x y = g x' y')
    (first : Agree w.bits vx x x') (second : Agree w.bits vy y y') : Agree 1 (cmpV w vx vy) (g x y) (g x' y') := by
  intro i low known
  obtain rfl : i = 0 := by omega
  have none_ : cut (widthTy w).bits (uifU w.bits vx vy) = 0 := castZero.mp (bitZero known)
  rw [widthTyBits,uifUZero] at none_
  rw [depends x x' y y' (agreeKnown none_.1 first) (agreeKnown none_.2 second)]

theorem equalKnown (first : Agree w.bits vx x x') (second : Agree w.bits vy y y')
    (known : (equalV w x y vx vy).getLsbD 0 = false) :
    cut w.bits x = cut w.bits y ↔ cut w.bits x' = cut w.bits y' := by
  have fits := widthFits w
  by_cases none_ : cut w.bits (uifU w.bits vx vy) = 0
  · obtain ⟨noneX,noneY⟩ := uifUZero.mp none_
    rw [agreeKnown noneX first,agreeKnown noneY second]
  · have zero := castZero.mp (bitZero known)
    rw [widthTyBits,cutZero] at zero
    have differs : ∃ i < w.bits, (uifU w.bits vx vy).getLsbD i = false ∧ (x ^^^ y).getLsbD i = true := by
      by_contra none'
      have full : cut w.bits (cut w.bits (uifU w.bits vx vy ||| cut w.bits (~~~cut w.bits (x ^^^ y)))) =
          cut w.bits (ones w.bits) := by
        refine cutEq.mpr fun i low => ?_
        have here : ¬ ((uifU w.bits vx vy).getLsbD i = false ∧ (x ^^^ y).getLsbD i = true) :=
          fun both => none' ⟨i,low,both⟩
        rw [cutBit,BitVec.getLsbD_or,cutBit,BitVec.getLsbD_not,cutBit,onesBit]
        have inside : i < 256 := by omega
        cases p : (uifU w.bits vx vy).getLsbD i <;> cases q : (x ^^^ y).getLsbD i <;> simp_all
      have least := zero 0 (widthSome w)
      rw [difD,cutBit,BitVec.getLsbD_and,castPlain (.inl (by cases w <;> decide)),
        castPlain (.inr (by cases w <;> decide)),full,pcast,pcast,widthTyBits,if_neg none_] at least
      have set : (flag (decide (cut w.bits (ones w.bits : Value) = cut w.bits (ones w.bits))) : Value) = 1 := by
        rw [decide_eq_true rfl]
        rfl
      rw [set,if_neg (by decide),onesBit,decide_eq_true (widthSome w)] at least
      cases least
    obtain ⟨i,low,untainted,differ⟩ := differs
    obtain ⟨knownX,knownY⟩ := (uifUBit low).mp untainted
    have apart : x.getLsbD i ≠ y.getLsbD i := by
      intro same
      rw [BitVec.getLsbD_xor,same,Bool.xor_self] at differ
      cases differ
    have apart' : x'.getLsbD i ≠ y'.getLsbD i := by
      rw [← first i low knownX,← second i low knownY]
      exact apart
    exact ⟨fun same => absurd (cutEq.mp same i low) apart,fun same => absurd (cutEq.mp same i low) apart'⟩

theorem agreeMull {ext : Value → Value} (low : ∀ k ≤ w.bits, ∀ z z', cut k z = cut k z' → cut k (ext z) = cut k (ext z'))
    (depends : ∀ z z', cut w.bits z = cut w.bits z' → ext z = ext z')
    (first : Agree w.bits vx x x') (second : Agree w.bits vy y y') :
    Agree (2 * w.bits) (mullV w vx vy) (cut (2 * w.bits) (ext x * ext y)) (cut (2 * w.bits) (ext x' * ext y')) := by
  have fits := widthFits w
  refine agreeCut.mpr fun i inside known => ?_
  rw [mullV,concatBit (by omega) inside] at known
  split at known
  · rename_i below
    have carries (k : Nat) (less : k ≤ w.bits) (a a' b b' : Value) (sameA : cut k a = cut k a')
        (sameB : cut k b = cut k b') : cut k (ext a * ext b) = cut k (ext a' * ext b') :=
      mulCarries (by omega) (low k less a a' sameA) (low k less b b' sameB)
    exact agreeLeft (f := fun a b => ext a * ext b) (by omega) carries first second i below known
  · rename_i above
    rw [castPlain (.inl (by cases w <;> decide)),pcastBit (bitsFit _) (by rw [widthTyBits]; omega),widthTyBits] at known
    have last := cutZero.mp known (w.bits - 1) (by omega)
    rw [leftV,leftBit (by omega) (by omega),Nat.sub_add_cancel (widthSome w),uifUZero] at last
    rw [depends x x' (agreeKnown last.1 first),depends y y' (agreeKnown last.2 second)]

theorem agreeShift {f : Nat → Value → Value} (sel : Nat → Nat → Option Nat)
    (steers : ∀ k z, ∀ i < w.bits, (f k z).getLsbD i = match sel k i with | some j => z.getLsbD j | none => false)
    (inside : ∀ k, ∀ i < w.bits, ∀ j, sel k i = some j → j < w.bits)
    (first : Agree w.bits vx x x') (second : Agree 8 vy y y') :
    Agree w.bits (uifU w.bits (f (cut 8 y).toNat vx) (castV .i8 (widthTy w) vy)) (f (cut 8 y).toNat x)
      (f (cut 8 y').toNat x') := by
  intro i low known
  obtain ⟨shifted,amount⟩ := (uifUBit low).mp known
  rw [castPlain (.inl (by decide)),pcastBit (bitsFit _) (by rwa [widthTyBits])] at amount
  have none_ : cut 8 vy = 0 := amount
  rw [← agreeKnown none_ second]
  exact agreeSteered (sel (cut 8 y).toNat) (steers _) (inside _) first i low shifted

theorem ordBit (less equal : Bool) (i : Nat) : (ord less equal).getLsbD i =
    if i = 3 then less else if i = 1 then !less && equal else if i = 2 then !less && !equal else false := by
  have bit (k : Nat) (small : k < 256) : (BitVec.ofNat 256 (2 ^ k)).getLsbD i = decide (k = i) := by
    rw [BitVec.getLsbD_ofNat,Nat.testBit_two_pow]
    by_cases same : k = i
    · rw [decide_eq_true same,decide_eq_true (same ▸ small)]
      rfl
    · rw [decide_eq_false same,Bool.and_false]
  cases less
  · cases equal
    · refine (bit 2 (by decide)).trans ?_
      by_cases here : i = 2
      · subst here
        rfl
      · rw [decide_eq_false (Ne.symm here)]
        simp [here]
    · refine (bit 1 (by decide)).trans ?_
      by_cases here : i = 1
      · subst here
        rfl
      · rw [decide_eq_false (Ne.symm here)]
        simp [here]
  · refine (bit 3 (by decide)).trans ?_
    by_cases here : i = 3
    · subst here
      rfl
    · rw [decide_eq_false (Ne.symm here)]
      simp [here]

end

def Kept : Binop → Prop
  | .casCmpEQ _ | .casCmpNE _ | .divModS64to64 => False
  | _ => True

section
variable {env : Setting} {zero : Bool} {vx vy x x' y y' : Value}

theorem wordBits (t : Word) : t.width.bits = t.ty.bits := by
  cases t <;> rfl

theorem lessZero {n : Nat} (some_ : 0 < n) (fits : n < 256) (none_ : cut n y = 0) :
    (sext n x).slt (sext n y) = x.getLsbD (n - 1) := by
  have zero : (sext n y : Value) = 0 := by
    rw [sextSame some_ (none_.trans (cutNothing n).symm)]
    apply BitVec.eq_of_getLsbD_eq
    intro i inside
    rw [sextBit inside]
    simp
  rw [zero]
  show (sext n x).slt 0#256 = _
  rw [BitVec.slt_zero_eq_msb,BitVec.msb_eq_getLsbD_last,sextBit (by decide),if_neg (by omega)]

theorem agreeOrd (prims : Prims) (t : Word) (syned : Bool)
    (literal : zero = true → cut t.ty.bits y = 0 ∧ cut t.ty.bits y' = 0)
    (first : Agree t.ty.bits vx x x') (second : Agree t.ty.bits vy y y') :
    Agree t.ty.bits (ordV t (syned && zero) vx vy) (Binop.eval prims (.cmpORD t syned) x y)
      (Binop.eval prims (.cmpORD t syned) x' y') := by
  have wide : t.ty ≠ .i1 := by cases t <;> decide
  have size : 4 < t.ty.bits ∧ t.ty.bits < 256 := by cases t <;> decide
  have all (sameX : cut t.ty.bits x = cut t.ty.bits x') (sameY : cut t.ty.bits y = cut t.ty.bits y') :
      Binop.eval prims (.cmpORD t syned) x y = Binop.eval prims (.cmpORD t syned) x' y' := by
    cases syned
    · rw [Binop.eval,Binop.eval,sameX,sameY]
    · rw [Binop.eval,Binop.eval,sextSame (by omega) sameX,sextSame (by omega) sameY,sameX,sameY]
  have bits (z z' : Value) : ∃ less equal, Binop.eval prims (.cmpORD t syned) z z' = ord less equal := by
    cases syned
    · exact ⟨_,_,rfl⟩
    · exact ⟨_,_,rfl⟩
  intro i low known
  by_cases place : i = 1 ∨ i = 2 ∨ i = 3
  · by_cases against : (syned && zero) = true
    · obtain ⟨rfl,isZero⟩ := Bool.and_eq_true_iff.mp against
      obtain ⟨noneY,noneY'⟩ := literal isZero
      rw [ordV,if_pos against,cutBit,decide_eq_true low,Bool.and_true,BitVec.getLsbD_or,cutBit,cutBit,
        decide_eq_true low,Bool.and_true,Bool.and_true,Bool.or_eq_false_iff] at known
      obtain ⟨cast,sign⟩ := known
      by_cases top : i = 3
      · subst top
        rw [BitVec.getLsbD_shiftLeft,BitVec.getLsbD_ushiftRight,cutBit] at sign
        have last : vx.getLsbD (t.ty.bits - 1) = false := by
          have below : t.ty.bits - 1 < t.ty.bits := by omega
          simpa [below] using sign
        rw [Binop.eval,Binop.eval,ordBit,ordBit,if_pos rfl,if_pos rfl,lessZero (by omega) size.2 noneY,
          lessZero (by omega) size.2 noneY',first _ (by omega) last]
      · have mask : (6 : Value).getLsbD i = true := by
          rcases place with rfl | rfl | rfl
          · decide
          · decide
          · exact absurd rfl top
        rw [BitVec.getLsbD_and,mask,Bool.and_true,castPlain (.inl wide),pcastBit (bitsFit _) low] at cast
        rw [all (agreeKnown cast first) (noneY.trans noneY'.symm)]
    · rw [ordV,if_neg against,cutBit,decide_eq_true low,Bool.and_true,BitVec.getLsbD_and] at known
      have mask : (14 : Value).getLsbD i = true := by
        rcases place with rfl | rfl | rfl <;> decide
      rw [mask,Bool.and_true,castPlain (.inl wide),pcastBit (bitsFit _) low,uifUZero] at known
      rw [all (agreeKnown known.1 first) (agreeKnown known.2 second)]
  · obtain ⟨less,equal,here⟩ := bits x y
    obtain ⟨less',equal',there⟩ := bits x' y'
    have off1 : i ≠ 1 := fun same => place (.inl same)
    have off2 : i ≠ 2 := fun same => place (.inr (.inl same))
    have off3 : i ≠ 3 := fun same => place (.inr (.inr same))
    rw [here,there,ordBit,ordBit,if_neg off3,if_neg off1,if_neg off2,if_neg off3,if_neg off1,if_neg off2]

theorem agreeEqual {w : Width} (first : Agree w.bits vx x x') (second : Agree w.bits vy y y') :
    Agree 1 (equalV w x y vx vy) (flag (cut w.bits x = cut w.bits y)) (flag (cut w.bits x' = cut w.bits y')) ∧
    Agree 1 (equalV w x y vx vy) (flag (cut w.bits x ≠ cut w.bits y)) (flag (cut w.bits x' ≠ cut w.bits y')) := by
  have known {i : Nat} (low : i < 1) (clear : (equalV w x y vx vy).getLsbD i = false) :
      (cut w.bits x = cut w.bits y) = (cut w.bits x' = cut w.bits y') := by
    obtain rfl : i = 0 := by omega
    exact propext (equalKnown first second clear)
  constructor <;> intro i low clear
  · simp only [known low clear]
  · simp only [ne_eq,known low clear]

theorem agreeDifferent (prims : Prims) (op : Binop) {w : Width}
    (depends : ∀ x x' y y', cut w.bits x = cut w.bits x' → cut w.bits y = cut w.bits y' →
      op.eval prims x y = op.eval prims x' y')
    (exactly : Agree 1 (equalV w x y vx vy) (op.eval prims x y) (op.eval prims x' y')) {P : Prop} [Decidable P]
    (first : Agree w.bits vx x x') (second : Agree w.bits vy y y') :
    Agree 1 (if P then equalV w x y vx vy else cmpV w vx vy) (op.eval prims x y) (op.eval prims x' y') := by
  split
  · exact exactly
  · exact agreeCmp depends first second

theorem shlSound (prims : Prims) (w : Width) (first : Agree w.bits vx x x') (second : Agree 8 vy y y') :
    Agree w.bits (uifU w.bits (Binop.eval prims (.shl w) vx y) (castV .i8 (widthTy w) vy))
      (Binop.eval prims (.shl w) x y) (Binop.eval prims (.shl w) x' y') := by
  have fits := widthFits w
  refine agreeShift (f := fun k z => cut w.bits (z <<< k)) (fun k i => if k ≤ i then some (i - k) else none)
    (fun k z i low => ?_) (fun k i low j found => ?_) first second
  · have inside : i < 256 := by omega
    rw [cutBit,decide_eq_true low,Bool.and_true,BitVec.getLsbD_shiftLeft,decide_eq_true inside,Bool.true_and]
    by_cases less : k ≤ i
    · rw [if_pos less,decide_eq_false (Nat.not_lt.mpr less)]
      rfl
    · rw [if_neg less,decide_eq_true (Nat.lt_of_not_le less)]
      rfl
  · split at found
    · cases found
      omega
    · cases found

theorem shrSound (prims : Prims) (w : Width) (first : Agree w.bits vx x x') (second : Agree 8 vy y y') :
    Agree w.bits (uifU w.bits (Binop.eval prims (.shr w) vx y) (castV .i8 (widthTy w) vy))
      (Binop.eval prims (.shr w) x y) (Binop.eval prims (.shr w) x' y') := by
  refine agreeShift (f := fun k z => cut w.bits z >>> k) (fun k i => if k + i < w.bits then some (k + i) else none)
    (fun k z i low => ?_) (fun k i low j found => ?_) first second
  · by_cases less : k + i < w.bits <;> simp [less]
  · split at found
    · cases found
      assumption
    · cases found

theorem sarSound (prims : Prims) (w : Width) (first : Agree w.bits vx x x') (second : Agree 8 vy y y') :
    Agree w.bits (uifU w.bits (Binop.eval prims (.sar w) vx y) (castV .i8 (widthTy w) vy))
      (Binop.eval prims (.sar w) x y) (Binop.eval prims (.sar w) x' y') := by
  have fits := widthFits w
  have some_ := widthSome w
  refine agreeShift (f := fun k z => cut w.bits ((sext w.bits z).sshiftRight k))
    (fun k i => some (if k + i < w.bits then k + i else w.bits - 1))
    (fun k z i low => ?_) (fun k i low j found => ?_) first second
  · have inside : ¬ 256 ≤ i := by omega
    have top : (sext w.bits z : Value).msb = z.getLsbD (w.bits - 1) := by
      rw [BitVec.msb_eq_getLsbD_last,sextBit (by decide),if_neg (by omega)]
    dsimp only
    rw [cutBit,decide_eq_true low,Bool.and_true,BitVec.getLsbD_sshiftRight,decide_eq_false inside,Bool.not_false,
      Bool.true_and,top]
    by_cases within : k + i < 256
    · rw [if_pos within,sextBit within]
      split <;> rfl
    · rw [if_neg within,if_neg (by omega)]
  · cases found
    split <;> omega

end

section
variable {env : Setting} {zero : Bool} {vx vy vz x x' y y' z z' : Value}

theorem mullSound (prims : Prims) (w : Width) (syned : Bool) (first : Agree w.bits vx x x')
    (second : Agree w.bits vy y y') :
    Agree (2 * w.bits) (mullV w vx vy) (Binop.eval prims (.mull w syned) x y) (Binop.eval prims (.mull w syned) x' y') := by
  have fits := widthFits w
  cases syned with
  | false =>
    refine agreeMull (fun k less a a' same => cutEq.mpr fun i low => ?_) (fun _ _ same => same) first second
    rw [cutBit,cutBit,cutEq.mp same i low]
  | true =>
    refine agreeMull (fun k less a a' same => cutEq.mpr fun i low => ?_) (fun _ _ => sextSame (widthSome w)) first second
    rw [sextBit (by omega),sextBit (by omega),if_pos (by omega),if_pos (by omega),cutEq.mp same i low]

theorem binopSound (prims : Prims) {op : Binop} (kept : Kept op)
    (literal : zero = true → cut op.type.2.2.bits y = 0 ∧ cut op.type.2.2.bits y' = 0)
    (first : Agree op.type.2.1.bits vx x x') (second : Agree op.type.2.2.bits vy y y') :
    Agree op.type.1.bits (vbitsBinop prims env op zero x y vx vy) (op.eval prims x y) (op.eval prims x' y') := by
  cases op with
  | casCmpEQ w | casCmpNE w | divModS64to64 => exact kept.elim
  | divMod64to32 | divMod128to64 | sad8Ux4 | qAdd32S | qSub32S | cmpF64 | f64toI32S | f64toF32 | sqrtF64 |
      roundF64toInt | f64toI64S | i64StoF64 =>
    exact agreeLazy (g := Binop.eval prims _) (fun _ _ _ _ p q => congrArg₂ (prims.binop _) p q) first second
  | div t | divE t =>
    cases t <;>
      exact agreeLazy (g := Binop.eval prims _) (fun _ _ _ _ p q => congrArg₂ (prims.binop _) p q) first second
  | add w =>
    have fits : w.bits ≤ 256 := (widthFits w).trans (by decide)
    simp only [Binop.type,widthTyBits] at first second ⊢
    have carries (k : Nat) (less : k ≤ w.bits) (a a' b b' : Value) (p : cut k a = cut k a') (q : cut k b = cut k b') :=
      addCarries (less.trans fits) p q
    unfold vbitsBinop Binop.eval
    dsimp only
    split
    · exact agreeCut.mpr (agreeSum fits first second)
    · exact agreeCut.mpr (agreeLeft (f := (· + ·)) fits carries first second)
  | sub w =>
    have fits : w.bits ≤ 256 := (widthFits w).trans (by decide)
    simp only [Binop.type,widthTyBits] at first second ⊢
    have carries (k : Nat) (less : k ≤ w.bits) (a a' b b' : Value) (p : cut k a = cut k a') (q : cut k b = cut k b') :=
      subCarries (less.trans fits) p q
    unfold vbitsBinop Binop.eval
    dsimp only
    split
    · exact agreeCut.mpr (agreeDifference fits first second)
    · exact agreeCut.mpr (agreeLeft (f := (· - ·)) fits carries first second)
  | mul w =>
    have fits : w.bits ≤ 256 := (widthFits w).trans (by decide)
    simp only [Binop.type,widthTyBits] at first second ⊢
    have carries (k : Nat) (less : k ≤ w.bits) (a a' b b' : Value) (p : cut k a = cut k a') (q : cut k b = cut k b') :=
      mulCarries (less.trans fits) p q
    exact agreeCut.mpr (agreeLeft (f := (· * ·)) fits carries first second)
  | and w =>
    simp only [Binop.type,widthTyBits] at first second ⊢
    exact agreeCut.mpr (agreeAnd first second)
  | or w =>
    simp only [Binop.type,widthTyBits] at first second ⊢
    exact agreeCut.mpr (agreeOr first second)
  | xor w =>
    simp only [Binop.type,widthTyBits] at first second ⊢
    exact agreeCut.mpr (agreeXor first second)
  | andV t => exact agreeCut.mpr (agreeAnd first second)
  | orV t => exact agreeCut.mpr (agreeOr first second)
  | xorV t => exact agreeCut.mpr (agreeXor first second)
  | shl w =>
    simp only [Binop.type,widthTyBits] at first ⊢
    exact shlSound prims w first second
  | shr w =>
    simp only [Binop.type,widthTyBits] at first ⊢
    exact shrSound prims w first second
  | sar w =>
    simp only [Binop.type,widthTyBits] at first ⊢
    exact sarSound prims w first second
  | cmpEQ w =>
    simp only [Binop.type,widthTyBits] at first second
    refine agreeDifferent prims (.cmpEQ w) (fun _ _ _ _ p q => ?_) (agreeEqual first second).1 first second
    rw [Binop.eval,Binop.eval,p,q]
  | cmpNE w =>
    simp only [Binop.type,widthTyBits] at first second
    refine agreeDifferent prims (.cmpNE w) (fun _ _ _ _ p q => ?_) (agreeEqual first second).2 first second
    rw [Binop.eval,Binop.eval,p,q]
  | expCmpNE w =>
    simp only [Binop.type,widthTyBits] at first second
    exact (agreeEqual first second).2
  | cmpLT t syned =>
    simp only [Binop.type,← wordBits] at first second
    refine agreeCmp (g := Binop.eval prims (.cmpLT t syned)) (fun _ _ _ _ p q => ?_) first second
    rw [wordBits] at p q
    have some_ : 0 < t.ty.bits := bitsSome _
    cases syned
    · rw [Binop.eval,Binop.eval,p,q]
    · rw [Binop.eval,Binop.eval,sextSame some_ p,sextSame some_ q]
  | cmpLE t syned =>
    simp only [Binop.type,← wordBits] at first second
    refine agreeCmp (g := Binop.eval prims (.cmpLE t syned)) (fun _ _ _ _ p q => ?_) first second
    rw [wordBits] at p q
    have some_ : 0 < t.ty.bits := bitsSome _
    cases syned
    · rw [Binop.eval,Binop.eval,p,q]
    · rw [Binop.eval,Binop.eval,sextSame some_ p,sextSame some_ q]
  | cmpORD t syned => exact agreeOrd prims t syned literal first second
  | mull w syned =>
    cases w with
    | w8 => exact mullSound prims .w8 syned first second
    | w16 => exact mullSound prims .w16 syned first second
    | w32 => exact mullSound prims .w32 syned first second
    | w64 => exact mullSound prims .w64 syned first second
  | iop8HLto16 => exact agreeConcat (n := 8) (by decide) first second
  | iop16HLto32 => exact agreeConcat (n := 16) (by decide) first second
  | iop32HLto64 => exact agreeConcat (n := 32) (by decide) first second
  | iop64HLto128 | iop64HLtoV128 => exact agreeConcat (n := 64) (by decide) first second
  | v128HLtoV256 => exact agreeConcat (n := 128) (by decide) first second
  | interleaveHI64x2 =>
    exact agreeConcat (n := 64) (by decide) (agreeDown (by decide) first) (agreeDown (by decide) second)

theorem triopSound (prims : Prims) {op : Triop} (first : Agree op.type.2.1.bits vx x x')
    (second : Agree op.type.2.2.1.bits vy y y') (third : Agree op.type.2.2.2.bits vz z z') :
    Agree op.type.1.bits (vbitsTriop op vx vy vz) (op.eval prims x y z) (op.eval prims x' y' z') := by
  intro i low known
  have low' : i < (shadowTypeV op.type.1).bits := by
    rw [shadowBits]
    exact low
  have none_ := lazyKnown low' known
  have noneX := none_ ⟨_,vx⟩ List.mem_cons_self
  have noneY := none_ ⟨_,vy⟩ (List.mem_cons_of_mem _ List.mem_cons_self)
  have noneZ := none_ ⟨_,vz⟩ (List.mem_cons_of_mem _ (List.mem_cons_of_mem _ List.mem_cons_self))
  rw [shadowBits] at noneX noneY noneZ
  rw [Triop.eval,Triop.eval,agreeKnown noneX first,agreeKnown noneY second,agreeKnown noneZ third]

end

section
variable {w : Width} {vx vy x x' y y' : Value}

theorem flippedApart {n j : Nat} (inside : j < 256) (low : j < n) (same : cut n x = cut n y) :
    ¬ cut n (flipped x j) = cut n y := by
  intro again
  have other := cutEq.mp again j low
  rw [flippedHere inside,cutEq.mp same j low] at other
  cases bit : y.getLsbD j <;> rw [bit] at other <;> cases other

def taken (v x y : Value) : Value := (x &&& ~~~v) ||| (y &&& v)

theorem takenBit {v : Value} {i : Nat} (inside : i < 256) :
    (taken v x y).getLsbD i = bif v.getLsbD i then y.getLsbD i else x.getLsbD i := by
  rw [taken,BitVec.getLsbD_or,BitVec.getLsbD_and,BitVec.getLsbD_and,BitVec.getLsbD_not,decide_eq_true inside]
  cases v.getLsbD i <;> simp

theorem agreeTaken {v : Value} : Agree w.bits v x (taken v x y) := by
  intro i low clear
  have fits := widthFits w
  rw [takenBit (by omega),clear]
  rfl

theorem equalUnknown (unknown : (equalV w x y vx vy).getLsbD 0 = true) :
    (∃ i < w.bits, (uifU w.bits vx vy).getLsbD i = true) ∧
      ∀ i < w.bits, (uifU w.bits vx vy).getLsbD i = false → x.getLsbD i = y.getLsbD i := by
  have wide : widthTy w ≠ .i1 := by cases w <;> decide
  have bits := widthTyBits w
  have some_ : ¬ cut (widthTy w).bits (difD w.bits (castV (widthTy w) (widthTy w) (uifU w.bits vx vy))
      (castV .i1 (widthTy w) (flag (cut w.bits (cut w.bits (uifU w.bits vx vy ||| cut w.bits (~~~cut w.bits (x ^^^ y)))) =
        cut w.bits (ones w.bits))))) = 0 := by
    intro none_
    have clear := cutZero.mp (castZero.mpr none_ : cut IRType.i1.bits _ = 0) 0 Nat.one_pos
    rw [show castV (widthTy w) .i1 _ = equalV w x y vx vy from rfl,unknown] at clear
    cases clear
  have tainted : ¬ cut w.bits (uifU w.bits vx vy) = 0 := by
    intro none_
    apply some_
    rw [castPlain (.inl wide),pcast,bits,if_pos none_]
    refine cutZero.mpr fun i low => ?_
    simp [difD]
  have full : cut w.bits (cut w.bits (uifU w.bits vx vy ||| cut w.bits (~~~cut w.bits (x ^^^ y)))) =
      cut w.bits (ones w.bits) := by
    by_contra other
    apply some_
    have clear : castV .i1 (widthTy w) (flag false) = 0 := by
      rw [castPlain (.inr wide)]
      rfl
    rw [decide_eq_false other,clear]
    refine cutZero.mpr fun i low => ?_
    simp [difD]
  refine ⟨?_,fun i low untainted => ?_⟩
  · by_contra none_
    exact tainted (cutZero.mpr fun i low => Bool.eq_false_of_not_eq_true fun set => none_ ⟨i,low,set⟩)
  · have fits := widthFits w
    have inside : i < 256 := by omega
    have bit := cutEq.mp full i low
    rw [cutBit,BitVec.getLsbD_or,untainted,cutBit,BitVec.getLsbD_not,cutBit,BitVec.getLsbD_xor,onesBit,
      decide_eq_true low,decide_eq_true inside] at bit
    cases p : x.getLsbD i <;> cases q : y.getLsbD i <;> simp_all

theorem equalExact : (equalV w x y vx vy).getLsbD 0 = true ↔ ∃ x' y', Agree w.bits vx x x' ∧ Agree w.bits vy y y' ∧
    ¬ (cut w.bits x = cut w.bits y ↔ cut w.bits x' = cut w.bits y') := by
  have fits := widthFits w
  constructor
  · intro unknown
    obtain ⟨⟨j,low,tainted⟩,known⟩ := equalUnknown unknown
    have inside : j < 256 := by omega
    by_cases same : cut w.bits x = cut w.bits y
    · by_cases first : vx.getLsbD j = true
      · exact ⟨flipped x j,y,agreeFlipped first,agreeRefl,fun both => flippedApart inside low same (both.mp same)⟩
      · have second : vy.getLsbD j = true := by
          by_contra none_
          rw [(uifUBit low).mpr ⟨Bool.eq_false_of_not_eq_true first,Bool.eq_false_of_not_eq_true none_⟩] at tainted
          cases tainted
        exact ⟨x,flipped y j,agreeRefl,agreeFlipped second,fun both =>
          flippedApart inside low same.symm (both.mp same).symm⟩
    · -- the tainted bits of x are taken from y, and those of y from the result
      refine ⟨taken vx x y,taken vy y (taken vx x y),agreeTaken,agreeTaken,fun both => ?_⟩
      refine same (both.mpr (cutEq.mpr fun i below => ?_))
      have here := known i below
      rw [uifUBit below] at here
      rw [takenBit (v := vy) (by omega),takenBit (by omega)]
      cases first : vx.getLsbD i
      · cases second : vy.getLsbD i
        · exact here ⟨first,second⟩
        · rfl
      · cases second : vy.getLsbD i <;> rfl
  · intro ⟨x',y',onX,onY,differ⟩
    cases known : (equalV w x y vx vy).getLsbD 0
    · exact absurd (equalKnown onX onY known) differ
    · rfl

end

section
variable {σ : Type} {prims : Prims} {calls : Calls Helper σ} {env : Setting} {Γ : Set Fact}
  {U : Set Todo} {w : World σ} {vxx vyy xx yy : IRAtom} {vx vy x y : Value}

/- The code of the costly sums and differences computes exactly the bits that can come out
otherwise. -/
theorem sumsExact {t : Width} (wide : t = .w32 ∨ t = .w64) (add : Bool) [Has Γ vxx .vSh ⟨widthTy t,vx⟩]
    [Has Γ vyy .vSh ⟨widthTy t,vy⟩] [Has Γ xx .orig ⟨widthTy t,x⟩] [Has Γ yy .orig ⟨widthTy t,y⟩] [Kinded vxx xx]
    [Kinded vyy yy] :
    ∃ v, Yields prims calls env Γ U w (expensiveAddSub add (widthTy t) vxx vyy xx yy) .vSh ⟨widthTy t,v⟩ ∧
      ∀ i < t.bits, v.getLsbD i = true ↔ ∃ x' y', Agree t.bits vx x x' ∧ Agree t.bits vy y y' ∧
        ((if add then Binop.add t else .sub t).eval prims x' y').getLsbD i ≠
          ((if add then Binop.add t else .sub t).eval prims x y).getLsbD i := by
  have fits : t.bits ≤ 256 := (widthFits t).trans (by decide)
  refine ⟨_,expensiveSums wide add,fun i low => ?_⟩
  have bit (z : Value) : (cut t.bits z).getLsbD i = z.getLsbD i := by
    rw [cutBit,decide_eq_true low,Bool.and_true]
  cases add with
  | true =>
    refine (sumExact fits low).trans (exists_congr fun x' => exists_congr fun y' => ?_)
    show _ ↔ _ ∧ _ ∧ (cut t.bits (x' + y')).getLsbD i ≠ (cut t.bits (x + y)).getLsbD i
    rw [bit,bit]
  | false =>
    refine (differenceExact fits low).trans (exists_congr fun x' => exists_congr fun y' => ?_)
    show _ ↔ _ ∧ _ ∧ (cut t.bits (x' - y')).getLsbD i ≠ (cut t.bits (x - y)).getLsbD i
    rw [bit,bit]

end

def noPrims : Prims := ⟨fun _ _ => 0,fun _ _ _ => 0,fun _ _ _ _ => 0,fun _ _ => 0⟩

def emptyWorld : World Flat := ⟨fun _ => 0,fun _ => 0,fun _ => 0,[]⟩

def sevenFacts : Set Fact := {.atom (.rdTmp 1) .vSh ⟨.i32,1⟩,.atom (.rdTmp 0) .orig ⟨.i32,7⟩}

/- One is added to seven, whose lowest bit is tainted: so is bit 3 of the sum. -/
theorem sumsExactSeven : ∃ v,
    Yields noPrims (helperCalls (fun e f => some (flat e f)) fun _ _ => true) ⟨true,false,64,.i64⟩ sevenFacts ∅ emptyWorld
      (expensiveAddSub true .i32 (.rdTmp 1) (.const (.u32 0)) (.rdTmp 0) (.const (.u32 1))) .vSh ⟨.i32,v⟩ ∧
    v.getLsbD 3 = true := by
  have first : Has sevenFacts (.rdTmp 1) .vSh ⟨widthTy .w32,1⟩ := ⟨fun c facts => facts _ (.inl rfl)⟩
  have second : Has sevenFacts (.rdTmp 0) .orig ⟨widthTy .w32,7⟩ := ⟨fun c facts => facts _ (.inr rfl)⟩
  have tmps : Kinded (.rdTmp 1) (.rdTmp 0) := ⟨rfl⟩
  have consts : Kinded (.const (.u32 0)) (.const (.u32 1)) := ⟨rfl⟩
  have zero : Has sevenFacts (.const (.u32 0)) .vSh ⟨widthTy .w32,0⟩ := hasConst
  have one : Has sevenFacts (.const (.u32 1)) .orig ⟨widthTy .w32,1⟩ := hasConst
  obtain ⟨v,yields,exactly⟩ := @sumsExact _ noPrims (helperCalls (fun e f => some (flat e f)) fun _ _ => true) ⟨true,false,64,.i64⟩
    sevenFacts ∅ emptyWorld _ _ _ _ 1 0 7 1 .w32 (.inl rfl) true first zero second one tmps consts
  refine ⟨v,yields,(exactly 3 (by decide)).mpr ⟨6,1,?_,fun _ _ _ => rfl,by decide⟩⟩
  unfold Agree
  decide

section
variable {σ : Type} {prims : Prims} {calls : Calls Helper σ} {env : Setting} {Γ : Set Fact} {U : Set Todo}
  {w : World σ} {vxx vyy xx yy : IRAtom} {vx vy x y : Value}

theorem flagOther {P Q : Prop} [Decidable P] [Decidable Q] :
    (flag (decide P) : Value) ≠ flag (decide Q) ↔ ¬ (Q ↔ P) := by
  have apart : (flag true : Value) ≠ flag false := by decide
  by_cases p : P <;> by_cases q : Q
  · simp [p,q]
  · simpa [p,q] using apart
  · simpa [p,q] using apart.symm
  · simp [p,q]

/- The code of the costly comparisons computes exactly whether it can come out otherwise. -/
theorem cmpsExact {t : Width} (wide : t ≠ .w8) [Has Γ vxx .vSh ⟨widthTy t,vx⟩] [Has Γ vyy .vSh ⟨widthTy t,vy⟩]
    [Has Γ xx .orig ⟨widthTy t,x⟩] [Has Γ yy .orig ⟨widthTy t,y⟩] [Kinded vxx xx] [Kinded vyy yy] :
    ∃ v, Yields prims calls env Γ U w (expensiveCmpEQorNE (widthTy t) vxx vyy xx yy) .vSh ⟨.i1,v⟩ ∧
      (v.getLsbD 0 = true ↔ ∃ x' y', Agree t.bits vx x x' ∧ Agree t.bits vy y y' ∧
        (Binop.cmpEQ t).eval prims x' y' ≠ (Binop.cmpEQ t).eval prims x y) := by
  refine ⟨_,expensiveCmps wide,equalExact.trans (exists_congr fun x' => exists_congr fun y' => ?_)⟩
  rw [Binop.eval,Binop.eval,flagOther]

end

/- Seven, whose lowest bit is tainted, may be six. -/
theorem cmpsExactSeven : ∃ v,
    Yields noPrims (helperCalls (fun e f => some (flat e f)) fun _ _ => true) ⟨true,false,64,.i64⟩ sevenFacts ∅ emptyWorld
      (expensiveCmpEQorNE .i32 (.rdTmp 1) (.const (.u32 0)) (.rdTmp 0) (.const (.u32 6))) .vSh ⟨.i1,v⟩ ∧
    v.getLsbD 0 = true := by
  have first : Has sevenFacts (.rdTmp 1) .vSh ⟨widthTy .w32,1⟩ := ⟨fun c facts => facts _ (.inl rfl)⟩
  have second : Has sevenFacts (.rdTmp 0) .orig ⟨widthTy .w32,7⟩ := ⟨fun c facts => facts _ (.inr rfl)⟩
  have tmps : Kinded (.rdTmp 1) (.rdTmp 0) := ⟨rfl⟩
  have consts : Kinded (.const (.u32 0)) (.const (.u32 6)) := ⟨rfl⟩
  have zero : Has sevenFacts (.const (.u32 0)) .vSh ⟨widthTy .w32,0⟩ := hasConst
  have six : Has sevenFacts (.const (.u32 6)) .orig ⟨widthTy .w32,6⟩ := hasConst
  obtain ⟨v,yields,exactly⟩ := @cmpsExact _ noPrims (helperCalls (fun e f => some (flat e f)) fun _ _ => true) ⟨true,false,64,.i64⟩
    sevenFacts ∅ emptyWorld _ _ _ _ 1 0 7 6 .w32 (by decide) first zero second six tmps consts
  refine ⟨v,yields,exactly.mpr ⟨6,6,?_,fun _ _ _ => rfl,by decide⟩⟩
  unfold Agree
  decide

end Autonomizer.Sound
