import Mathlib

/-! Words some of whose bits are unknown: which bits of a result two words can differ in that
agree in all the others. -/
namespace Autonomizer.Bits

section
variable {w : Nat}

def ones (n : Nat) : BitVec w := BitVec.ofNat w (2 ^ n - 1)

def cut (n : Nat) (x : BitVec w) : BitVec w := x &&& ones n

def sext (n : Nat) (x : BitVec w) : BitVec w := if x.getLsbD (n - 1) then x ||| ~~~ones n else cut n x

def flag (b : Bool) : BitVec w := if b then 1 else 0

@[simp] theorem onesBit (n i : Nat) : (ones n : BitVec w).getLsbD i = (decide (i < w) && decide (i < n)) := by
  rw [ones,BitVec.getLsbD_ofNat,Nat.testBit_two_pow_sub_one]

@[simp] theorem cutBit (n i : Nat) (x : BitVec w) : (cut n x).getLsbD i = (x.getLsbD i && decide (i < n)) := by
  rw [cut,BitVec.getLsbD_and,onesBit]
  by_cases inside : i < w
  · rw [decide_eq_true inside,Bool.true_and]
  · rw [BitVec.getLsbD_of_ge _ _ (by omega),Bool.false_and,Bool.false_and]

theorem sextBit {n i : Nat} (inside : i < w) (x : BitVec w) :
    (sext n x).getLsbD i = if i < n then x.getLsbD i else x.getLsbD (n - 1) := by
  rw [sext]
  by_cases sign : x.getLsbD (n - 1)
  · rw [if_pos sign,sign,BitVec.getLsbD_or,BitVec.getLsbD_not,onesBit,decide_eq_true inside]
    by_cases low : i < n <;> simp only [low] <;> simp
  · rw [if_neg sign,Bool.eq_false_of_not_eq_true sign,cutBit]
    by_cases low : i < n <;> simp [low]

theorem cutEq {n : Nat} {x y : BitVec w} : cut n x = cut n y ↔ ∀ i < n, x.getLsbD i = y.getLsbD i := by
  constructor
  · intro same i low
    have bit := congrArg (·.getLsbD i) same
    simpa [low] using bit
  · intro bits
    apply BitVec.eq_of_getLsbD_eq
    intro i _
    by_cases low : i < n
    · simp [low,bits i low]
    · simp [low]

theorem cutWidth {n : Nat} {x y : BitVec w} : cut n x = cut n y ↔ x.setWidth n = y.setWidth n := by
  rw [cutEq]
  constructor
  · intro bits
    apply BitVec.eq_of_getLsbD_eq
    intro i low
    rw [BitVec.getLsbD_setWidth,BitVec.getLsbD_setWidth,bits i low]
  · intro same i low
    have bit := congrArg (·.getLsbD i) same
    simp only [BitVec.getLsbD_setWidth] at bit
    simpa only [decide_eq_true low,Bool.true_and] using bit

theorem cutZero {n : Nat} {x : BitVec w} : cut n x = 0 ↔ ∀ i < n, x.getLsbD i = false := by
  have none_ : (cut n 0 : BitVec w) = 0 := by simp [cut]
  rw [← none_,cutEq]
  simp

@[simp] theorem cutTwice (n : Nat) (x : BitVec w) : cut n (cut n x) = cut n x := by
  rw [cut,cut,BitVec.and_assoc,BitVec.and_self]

@[simp] theorem cutNothing (n : Nat) : cut n (0 : BitVec w) = 0 := by simp [cut]

/- Two words that agree in the bits below n that are not set in v. -/
def Agree (n : Nat) (v x y : BitVec w) : Prop := ∀ i < n, v.getLsbD i = false → x.getLsbD i = y.getLsbD i

variable {n m : Nat} {v u x y x' y' vx vy : BitVec w}

theorem agreeRefl : Agree n v x x := fun _ _ _ => rfl

theorem agreeCut : Agree n v (cut n x) (cut n y) ↔ Agree n v x y := by
  constructor <;> intro agree i low known
  · simpa [low] using agree i low known
  · simpa [low] using agree i low known

theorem agreeKnown (known : cut n v = 0) (agree : Agree n v x y) : cut n x = cut n y :=
  cutEq.mpr fun i low => agree i low (cutZero.mp known i low)

theorem agreeSteered {f : BitVec w → BitVec w} (sel : Nat → Option Nat)
    (steers : ∀ z, ∀ i < m, (f z).getLsbD i = match sel i with | some j => z.getLsbD j | none => false)
    (inside : ∀ i < m, ∀ j, sel i = some j → j < n) (agree : Agree n v x y) : Agree m (f v) (f x) (f y) := by
  intro i low known
  rw [steers v i low] at known
  rw [steers x i low,steers y i low]
  cases found : sel i with
  | none => rfl
  | some j =>
    rw [found] at known
    exact agree j (inside i low j found) known

end

section
variable {w n : Nat} {vx vy x y x' y' : BitVec w}

/- An undefined bit makes undefined: bit by bit, from it on, or everywhere. -/
def uifU (n : Nat) (vx vy : BitVec w) : BitVec w := cut n (vx ||| vy)
def difD (n : Nat) (vx vy : BitVec w) : BitVec w := cut n (vx &&& vy)
def left (n : Nat) (vx : BitVec w) : BitVec w := cut n (vx ||| -vx)
def pcast (m n : Nat) (vx : BitVec w) : BitVec w := if cut m vx = 0 then 0 else ones n

theorem uifUBit {i : Nat} (low : i < n) :
    (uifU n vx vy).getLsbD i = false ↔ vx.getLsbD i = false ∧ vy.getLsbD i = false := by
  simp [uifU,low]

theorem uifUZero : cut n (uifU n vx vy) = 0 ↔ cut n vx = 0 ∧ cut n vy = 0 := by
  rw [cutZero,cutZero,cutZero]
  constructor
  · intro none_
    exact ⟨fun i low => ((uifUBit low).mp (none_ i low)).1,fun i low => ((uifUBit low).mp (none_ i low)).2⟩
  · intro ⟨first,second⟩ i low
    exact (uifUBit low).mpr ⟨first i low,second i low⟩

theorem pcastBit {m i : Nat} (fits : n ≤ w) (low : i < n) :
    (pcast m n vx).getLsbD i = false ↔ cut m vx = 0 := by
  have inside : i < w := by omega
  rw [pcast]
  by_cases none_ : cut m vx = 0
  · rw [if_pos none_]
    simp [none_]
  · rw [if_neg none_,onesBit,decide_eq_true inside,decide_eq_true low]
    exact ⟨nofun,fun other => absurd other none_⟩

theorem pcastZero {m : Nat} (some_ : 0 < n) (fits : n ≤ w) : cut n (pcast m n vx) = 0 ↔ cut m vx = 0 := by
  rw [cutZero]
  constructor
  · intro none_
    exact (pcastBit fits some_).mp (none_ 0 some_)
  · intro none_ i low
    exact (pcastBit fits low).mpr none_

theorem leftBit {i : Nat} (fits : n ≤ w) (low : i < n) :
    (left n vx).getLsbD i = false ↔ cut (i + 1) vx = 0 := by
  have inside : i < w := by omega
  rw [cutZero]
  have bit : (left n vx).getLsbD i = (vx.getLsbD i || (vx.getLsbD i ^^ decide (∃ j < i, vx.getLsbD j = true))) := by
    rw [left,cutBit,BitVec.getLsbD_or,BitVec.getLsbD_neg,decide_eq_true inside,decide_eq_true low,Bool.true_and,
      Bool.and_true]
  rw [bit]
  constructor
  · intro none_ j below
    have here : vx.getLsbD i = false := by
      cases set : vx.getLsbD i
      · rfl
      · rw [set] at none_
        cases none_
    rw [here] at none_
    by_cases same : j = i
    · rw [same,here]
    · have earlier : ¬ ∃ j < i, vx.getLsbD j = true := by simpa using none_
      cases set : vx.getLsbD j
      · rfl
      · exact absurd ⟨j,by omega,set⟩ earlier
  · intro none_
    have earlier : ¬ ∃ j < i, vx.getLsbD j = true := by
      intro ⟨j,below,set⟩
      rw [none_ j (by omega)] at set
      cases set
    simp [none_ i (by omega),earlier]

theorem agreeOr (first : Agree n vx x x') (second : Agree n vy y y') :
    Agree n (difD n (uifU n vx vy) (difD n (cut n (cut n (~~~x) ||| vx)) (cut n (cut n (~~~y) ||| vy)))) (x ||| y) (x' ||| y') := by
  intro i low known
  have here := first i low
  have there := second i low
  by_cases inside : i < w
  · simp only [difD,uifU,cutBit,BitVec.getLsbD_and,BitVec.getLsbD_or,BitVec.getLsbD_not,low,inside,
      decide_true,Bool.and_true,Bool.true_and] at known ⊢
    grind
  · rw [BitVec.getLsbD_of_ge _ _ (by omega),BitVec.getLsbD_of_ge _ _ (by omega)]

theorem agreeAnd (first : Agree n vx x x') (second : Agree n vy y y') :
    Agree n (difD n (uifU n vx vy) (difD n (cut n (x ||| vx)) (cut n (y ||| vy)))) (x &&& y) (x' &&& y') := by
  intro i low known
  have here := first i low
  have there := second i low
  simp only [difD,uifU,cutBit,BitVec.getLsbD_and,BitVec.getLsbD_or,low,decide_true,Bool.and_true] at known ⊢
  grind

theorem agreeXor (first : Agree n vx x x') (second : Agree n vy y y') :
    Agree n (uifU n vx vy) (x ^^^ y) (x' ^^^ y') := by
  intro i low known
  obtain ⟨knownX,knownY⟩ := (uifUBit low).mp known
  rw [BitVec.getLsbD_xor,BitVec.getLsbD_xor,first i low knownX,second i low knownY]

theorem agreeNot (agree : Agree n vx x x') : Agree n vx (~~~x) (~~~x') := by
  intro i low known
  rw [BitVec.getLsbD_not,BitVec.getLsbD_not,agree i low known]

theorem agreeLeft {f : BitVec w → BitVec w → BitVec w} (fits : n ≤ w)
    (carries : ∀ k ≤ n, ∀ a a' b b', cut k a = cut k a' → cut k b = cut k b' → cut k (f a b) = cut k (f a' b'))
    (first : Agree n vx x x') (second : Agree n vy y y') :
    Agree n (left n (uifU n vx vy)) (f x y) (f x' y') := by
  intro i low known
  have none_ := cutZero.mp ((leftBit fits low).mp known)
  have both (j : Nat) (below : j < i + 1) := (uifUBit (show j < n by omega)).mp (none_ j below)
  have sameX : cut (i + 1) x = cut (i + 1) x' := cutEq.mpr fun j below => first j (by omega) (both j below).1
  have sameY : cut (i + 1) y = cut (i + 1) y' := cutEq.mpr fun j below => second j (by omega) (both j below).2
  exact cutEq.mp (carries (i + 1) (by omega) x x' y y' sameX sameY) i (by omega)

section
variable {k : Nat} {a a' b b' : BitVec w}

theorem addCarries (fits : k ≤ w) (first : cut k a = cut k a') (second : cut k b = cut k b') :
    cut k (a + b) = cut k (a' + b') := by
  rw [cutWidth] at first second ⊢
  rw [BitVec.setWidth_add _ _ fits,BitVec.setWidth_add _ _ fits,first,second]

theorem subCarries (fits : k ≤ w) (first : cut k a = cut k a') (second : cut k b = cut k b') :
    cut k (a - b) = cut k (a' - b') := by
  rw [cutWidth] at first second ⊢
  rw [BitVec.sub_eq_add_neg,BitVec.sub_eq_add_neg,BitVec.setWidth_add _ _ fits,BitVec.setWidth_add _ _ fits,
    BitVec.setWidth_neg_of_le fits,BitVec.setWidth_neg_of_le fits,first,second]

theorem mulCarries (fits : k ≤ w) (first : cut k a = cut k a') (second : cut k b = cut k b') :
    cut k (a * b) = cut k (a' * b') := by
  rw [cutWidth] at first second ⊢
  rw [BitVec.setWidth_mul _ _ fits,BitVec.setWidth_mul _ _ fits,first,second]

end

section
variable {i : Nat} {c : Bool} {a b a' b' : BitVec w}

theorem carryMore (first : ∀ j < i, a.getLsbD j = true → a'.getLsbD j = true)
    (second : ∀ j < i, b.getLsbD j = true → b'.getLsbD j = true) (carry : BitVec.carry i a b c = true) :
    BitVec.carry i a' b' c = true := by
  induction i with
  | zero => simpa [BitVec.carry_zero] using carry
  | succ i ih =>
    have before := ih (fun j below => first j (by omega)) (fun j below => second j (by omega))
    have here := first i (by omega)
    have there := second i (by omega)
    rw [BitVec.carry_succ] at carry ⊢
    cases p : a.getLsbD i <;> cases q : b.getLsbD i <;> cases r : BitVec.carry i a b c <;>
      simp_all [Bool.atLeastTwo]

structure Between (i : Nat) (lo x hi : BitVec w) : Prop where
  below : ∀ j < i, lo.getLsbD j = true → x.getLsbD j = true
  above : ∀ j < i, x.getLsbD j = true → hi.getLsbD j = true
  atLo : lo.getLsbD i = x.getLsbD i
  atHi : x.getLsbD i = hi.getLsbD i

def plus (a b : BitVec w) (c : Bool) : BitVec w := a + b + BitVec.setWidth w (BitVec.ofBool c)

theorem plusBetween {lo x hi lo' x' hi' : BitVec w} (inside : i < w) (first : Between i lo x hi)
    (second : Between i lo' x' hi') (same : (plus lo lo' c).getLsbD i = (plus hi hi' c).getLsbD i) :
    (plus x x' c).getLsbD i = (plus lo lo' c).getLsbD i := by
  rw [plus,plus,BitVec.getLsbD_add_add_bool inside,BitVec.getLsbD_add_add_bool inside] at same ⊢
  rw [← first.atHi,← second.atHi,first.atLo,second.atLo,Bool.xor_right_inj,Bool.xor_right_inj] at same
  rw [first.atLo,second.atLo,Bool.xor_right_inj,Bool.xor_right_inj]
  cases low : BitVec.carry i lo lo' c
  · cases here : BitVec.carry i x x' c
    · rfl
    · have high := carryMore first.above second.above here
      rw [← same,low] at high
      cases high
  · exact carryMore first.below second.below low

end

/- The words with the unknown bits of a all clear, and all set. -/
def least (n : Nat) (a qa : BitVec w) : BitVec w := cut n (a &&& cut n (~~~qa))
def greatest (n : Nat) (a qa : BitVec w) : BitVec w := cut n (a ||| qa)

def sumUnknown (n : Nat) (qa qb a b : BitVec w) : BitVec w :=
  cut n (cut n (qa ||| qb) |||
    cut n (cut n (least n a qa + least n b qb) ^^^ cut n (greatest n a qa + greatest n b qb)))

def differenceUnknown (n : Nat) (qa qb a b : BitVec w) : BitVec w :=
  cut n (cut n (qa ||| qb) |||
    cut n (cut n (least n a qa - greatest n b qb) ^^^ cut n (greatest n a qa - least n b qb)))

section
variable {i : Nat} {q a a' : BitVec w}

theorem leastBit (fits : n ≤ w) (low : i < n) :
    (least n a q).getLsbD i = (a.getLsbD i && !q.getLsbD i) := by
  have inside : i < w := by omega
  simp only [least,cutBit,BitVec.getLsbD_and,BitVec.getLsbD_not,decide_eq_true inside,decide_eq_true low,
    Bool.true_and,Bool.and_true]

theorem greatestBit (low : i < n) : (greatest n a q).getLsbD i = (a.getLsbD i || q.getLsbD i) := by
  simp only [greatest,cutBit,BitVec.getLsbD_or,decide_eq_true low,Bool.and_true]

theorem agreeLeast (fits : n ≤ w) : Agree n q a (least n a q) := by
  intro i low known
  rw [leastBit fits low,known,Bool.not_false,Bool.and_true]

theorem agreeGreatest : Agree n q a (greatest n a q) := by
  intro i low known
  rw [greatestBit low,known,Bool.or_false]

end

section
variable {qa qb a b a' b' : BitVec w} {i : Nat}

theorem between (fits : n ≤ w) (low : i < n) (known : qa.getLsbD i = false) (agree : Agree n qa a a') :
    Between i (least n a qa) a' (greatest n a qa) := by
  refine ⟨fun j below set => ?_,fun j below set => ?_,?_,?_⟩
  · rw [leastBit fits (by omega),Bool.and_eq_true,Bool.not_eq_true'] at set
    rw [← agree j (by omega) set.2,set.1]
  · rw [greatestBit (by omega)]
    cases unknown : qa.getLsbD j
    · rw [agree j (by omega) unknown,set,Bool.true_or]
    · rw [Bool.or_true]
  · rw [leastBit fits low,known,Bool.not_false,Bool.and_true,agree i low known]
  · rw [greatestBit low,known,Bool.or_false,agree i low known]

theorem betweenNot {lo x hi : BitVec w} (between : Between i lo x hi) :
    Between i (~~~hi) (~~~x) (~~~lo) := by
  have flips {y z : BitVec w} {j : Nat} (more : y.getLsbD j = true → z.getLsbD j = true)
      (set : (~~~z).getLsbD j = true) : (~~~y).getLsbD j = true := by
    rw [BitVec.getLsbD_not,Bool.and_eq_true,Bool.not_eq_true'] at set ⊢
    refine ⟨set.1,?_⟩
    cases bit : y.getLsbD j
    · rfl
    · rw [more bit] at set
      cases set.2
  refine ⟨fun j below => flips (between.above j below),fun j below => flips (between.below j below),?_,?_⟩
  · rw [BitVec.getLsbD_not,BitVec.getLsbD_not,between.atHi]
  · rw [BitVec.getLsbD_not,BitVec.getLsbD_not,between.atLo]

theorem plusNothing (x y : BitVec w) : plus x y false = x + y := by
  simp [plus]

theorem plusNot (x y : BitVec w) : plus x (~~~y) true = x - y := by
  have one_ : BitVec.setWidth w (BitVec.ofBool true) = 1#w := by
    apply BitVec.eq_of_toNat_eq
    simp
  rw [plus,one_,BitVec.sub_eq_add_neg,BitVec.neg_eq_not_add,BitVec.add_assoc]

theorem sumBit (low : i < n) : (sumUnknown n qa qb a b).getLsbD i = false ↔
    qa.getLsbD i = false ∧ qb.getLsbD i = false ∧
      (least n a qa + least n b qb).getLsbD i = (greatest n a qa + greatest n b qb).getLsbD i := by
  simp only [sumUnknown,cutBit,BitVec.getLsbD_or,BitVec.getLsbD_xor,decide_eq_true low,Bool.and_true,
    Bool.or_eq_false_iff,and_assoc,bne_eq_false_iff_eq]

theorem differenceBit (low : i < n) : (differenceUnknown n qa qb a b).getLsbD i = false ↔
    qa.getLsbD i = false ∧ qb.getLsbD i = false ∧
      (least n a qa - greatest n b qb).getLsbD i = (greatest n a qa - least n b qb).getLsbD i := by
  simp only [differenceUnknown,cutBit,BitVec.getLsbD_or,BitVec.getLsbD_xor,decide_eq_true low,Bool.and_true,
    Bool.or_eq_false_iff,and_assoc,bne_eq_false_iff_eq]

theorem agreeSum (fits : n ≤ w) (first : Agree n qa a a') (second : Agree n qb b b') :
    Agree n (sumUnknown n qa qb a b) (a + b) (a' + b') := by
  intro i low known
  obtain ⟨knownA,knownB,same⟩ := (sumBit low).mp known
  rw [← plusNothing,← plusNothing] at same ⊢
  have one {x y : BitVec w} (onX : Agree n qa a x) (onY : Agree n qb b y) :=
    plusBetween (by omega) (between fits low knownA onX) (between fits low knownB onY) same
  rw [one agreeRefl agreeRefl,one first second]

theorem agreeDifference (fits : n ≤ w) (first : Agree n qa a a') (second : Agree n qb b b') :
    Agree n (differenceUnknown n qa qb a b) (a - b) (a' - b') := by
  intro i low known
  obtain ⟨knownA,knownB,same⟩ := (differenceBit low).mp known
  rw [← plusNot,← plusNot] at same ⊢
  have inside : i < w := by omega
  have one {x y : BitVec w} (onX : Agree n qa a x) (onY : Agree n qb b y) :=
    plusBetween inside (between fits low knownA onX) (betweenNot (between fits low knownB onY)) same
  rw [one agreeRefl agreeRefl,one first second]

theorem plusOther {x y x' y' : BitVec w} {c : Bool} (inside : i < w) (lowX : ∀ j < i, x'.getLsbD j = x.getLsbD j)
    (lowY : ∀ j < i, y'.getLsbD j = y.getLsbD j)
    (other : (x'.getLsbD i ^^ y'.getLsbD i) ≠ (x.getLsbD i ^^ y.getLsbD i)) :
    (plus x' y' c).getLsbD i ≠ (plus x y c).getLsbD i := by
  have carry : BitVec.carry i x' y' c = BitVec.carry i x y c := by
    refine Bool.eq_iff_iff.mpr ⟨carryMore (fun j below set => ?_) fun j below set => ?_,
      carryMore (fun j below set => ?_) fun j below set => ?_⟩
    · rwa [← lowX j below]
    · rwa [← lowY j below]
    · rwa [lowX j below]
    · rwa [lowY j below]
  intro same
  rw [plus,plus,BitVec.getLsbD_add_add_bool inside,BitVec.getLsbD_add_add_bool inside,carry,← Bool.xor_assoc,
    ← Bool.xor_assoc,Bool.xor_left_inj] at same
  exact other same

def flipped (a : BitVec w) (i : Nat) : BitVec w := a ^^^ BitVec.twoPow w i

theorem flippedHere (inside : i < w) : (flipped a i).getLsbD i = !a.getLsbD i := by
  rw [flipped,BitVec.getLsbD_xor,BitVec.getLsbD_twoPow,decide_eq_true inside,decide_eq_true rfl,Bool.true_and,
    Bool.xor_true]

theorem flippedOther {j : Nat} (other : i ≠ j) : (flipped a i).getLsbD j = a.getLsbD j := by
  rw [flipped,BitVec.getLsbD_xor,BitVec.getLsbD_twoPow,decide_eq_false other,Bool.and_false,Bool.xor_false]

theorem agreeFlipped (unknown : qa.getLsbD i = true) : Agree n qa a (flipped a i) := by
  intro j _ known
  refine (flippedOther fun same => ?_).symm
  rw [← same,unknown] at known
  cases known

section
variable {f : BitVec w → BitVec w → BitVec w} {q loA loB hiA hiB : BitVec w}

/- A bit that is called unknown can come out either way: by that bit of an operand, or between
the extremes of both. -/
theorem exactOf (bit : q.getLsbD i = false ↔
      qa.getLsbD i = false ∧ qb.getLsbD i = false ∧ (f loA loB).getLsbD i = (f hiA hiB).getLsbD i)
    (onLoA : Agree n qa a loA) (onLoB : Agree n qb b loB) (onHiA : Agree n qa a hiA) (onHiB : Agree n qb b hiB)
    (otherA : (f (flipped a i) b).getLsbD i ≠ (f a b).getLsbD i)
    (otherB : (f a (flipped b i)).getLsbD i ≠ (f a b).getLsbD i)
    (sound : ∀ a' b', Agree n qa a a' → Agree n qb b b' → q.getLsbD i = false →
      (f a b).getLsbD i = (f a' b').getLsbD i) :
    q.getLsbD i = true ↔
      ∃ a' b', Agree n qa a a' ∧ Agree n qb b b' ∧ (f a' b').getLsbD i ≠ (f a b).getLsbD i := by
  constructor
  · intro unknown
    by_cases first : qa.getLsbD i = true
    · exact ⟨flipped a i,b,agreeFlipped first,agreeRefl,otherA⟩
    · by_cases second : qb.getLsbD i = true
      · exact ⟨a,flipped b i,agreeRefl,agreeFlipped second,otherB⟩
      · have differ : (f loA loB).getLsbD i ≠ (f hiA hiB).getLsbD i := by
          intro same
          rw [bit.mpr ⟨Bool.eq_false_of_not_eq_true first,Bool.eq_false_of_not_eq_true second,same⟩] at unknown
          cases unknown
        by_cases here : (f loA loB).getLsbD i = (f a b).getLsbD i
        · exact ⟨hiA,hiB,onHiA,onHiB,fun same => differ (here.trans same.symm)⟩
        · exact ⟨loA,loB,onLoA,onLoB,here⟩
  · intro ⟨a',b',onA,onB,differ⟩
    cases known : q.getLsbD i
    · exact absurd (sound a' b' onA onB known).symm differ
    · rfl

end

theorem sumExact (fits : n ≤ w) (low : i < n) : (sumUnknown n qa qb a b).getLsbD i = true ↔
    ∃ a' b', Agree n qa a a' ∧ Agree n qb b b' ∧ (a' + b').getLsbD i ≠ (a + b).getLsbD i := by
  have inside : i < w := by omega
  refine exactOf (sumBit low) (agreeLeast fits) (agreeLeast fits) agreeGreatest agreeGreatest ?_ ?_
    fun a' b' onA onB known => agreeSum fits onA onB i low known
  · rw [← plusNothing,← plusNothing]
    refine plusOther inside (fun j below => flippedOther (by omega)) (fun _ _ => rfl) ?_
    rw [flippedHere inside]
    cases a.getLsbD i <;> cases b.getLsbD i <;> decide
  · rw [← plusNothing,← plusNothing]
    refine plusOther inside (fun _ _ => rfl) (fun j below => flippedOther (by omega)) ?_
    rw [flippedHere inside]
    cases a.getLsbD i <;> cases b.getLsbD i <;> decide

theorem differenceExact (fits : n ≤ w) (low : i < n) : (differenceUnknown n qa qb a b).getLsbD i = true ↔
    ∃ a' b', Agree n qa a a' ∧ Agree n qb b b' ∧ (a' - b').getLsbD i ≠ (a - b).getLsbD i := by
  have inside : i < w := by omega
  refine exactOf (differenceBit low) (agreeLeast fits) agreeGreatest agreeGreatest (agreeLeast fits) ?_ ?_
    fun a' b' onA onB known => agreeDifference fits onA onB i low known
  · rw [← plusNot,← plusNot]
    refine plusOther inside (fun j below => flippedOther (by omega)) (fun _ _ => rfl) ?_
    rw [flippedHere inside]
    cases a.getLsbD i <;> cases (~~~b).getLsbD i <;> decide
  · rw [← plusNot,← plusNot]
    refine plusOther inside (fun _ _ => rfl) (fun j below => ?_) ?_
    · rw [BitVec.getLsbD_not,BitVec.getLsbD_not,flippedOther (by omega)]
    · rw [BitVec.getLsbD_not,BitVec.getLsbD_not,flippedHere inside,decide_eq_true inside]
      cases a.getLsbD i <;> cases b.getLsbD i <;> decide

end

end

end Autonomizer.Bits
