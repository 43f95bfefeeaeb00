import Mathlib
import Autonomizer.Format

/-! IEEE 754 binary64 values over the rationals: the interchange formats, rounding,
printf %f and Python's float(). -/
namespace Autonomizer.Binary64
open Format

inductive Fp where
  | fin (neg : Bool) (mag : ℚ)
  | inf (neg : Bool)
  | nan (neg : Bool)
  deriving DecidableEq

/- An integer that is a binary64 value. -/
def Fp.ofInt (n : Int) : Fp := .fin (n < 0) (n.natAbs : ℚ)

def roundHalfEven (q : ℚ) : Int :=
  let below := ⌊q⌋
  if q - below < 1/2 then below
  else if 1/2 < q - below then below + 1
  else if below % 2 = 0 then below else below + 1

def spacing (q : ℚ) : Int := max (Int.log 2 q - 52) (-1074)

def roundMag (q : ℚ) : ℚ := roundHalfEven (q / 2 ^ spacing q) * 2 ^ spacing q

def round (neg : Bool) (q : ℚ) : Fp :=
  if 2^1024 ≤ roundMag q then .inf neg else .fin neg (roundMag q)

/- An interchange format of the given exponent and trailing significand widths. -/
def decode (expBits manBits : Nat) (bits : Nat) : Fp :=
  let neg := bits / 2^(expBits + manBits) % 2 = 1
  let exp := bits / 2^manBits % 2^expBits
  let man := bits % 2^manBits
  let bias : Int := 2^(expBits - 1) - 1
  if exp = 2^expBits - 1 then (if man = 0 then .inf neg else .nan neg)
  else if exp = 0 then .fin neg (man * 2^(1 - bias - manBits))
  else .fin neg ((2^manBits + man : Nat) * 2^((exp : Int) - bias - manBits))

/- The bits of a binary64 value. -/
def encode64 : Fp → Nat
  | .fin neg q =>
      let sign := if neg then 2^63 else 0
      let man := ⌊q / 2 ^ spacing q⌋.toNat
      if man < 2^52 then sign + man
      else sign + ((spacing q + 1075).toNat * 2^52 + (man - 2^52))
  | .inf neg => (if neg then 2^63 else 0) + 2047 * 2^52
  | .nan neg => (if neg then 2^63 else 0) + 2047 * 2^52 + 2^51

def signText (neg : Bool) : Text := if neg then ['-'] else []

def six (n : Nat) : Text := (Nat.toDigits 10 (10^6 + n)).tail

/- printf %f and %lf. -/
def printF : Fp → Text
  | .fin neg q =>
      let scaled := (roundHalfEven (q * 10^6)).toNat
      signText neg ++ Nat.toDigits 10 (scaled / 10^6) ++ '.' :: six (scaled % 10^6)
  | .inf neg => signText neg ++ "inf".toList
  | .nan neg => signText neg ++ "nan".toList

def strip (text : Text) : Text :=
  ((text.dropWhile isSpace).reverse.dropWhile isSpace).reverse

def scanExponent : Text → Option Int
  | [] => some 0
  | c :: rest =>
      if c = 'e' ∨ c = 'E' then
        match rest with
        | '-' :: digits => if digits ≠ [] ∧ digits.all Char.isDigit
            then some (-(Nat.ofDigitChars 10 digits 0 : Int)) else none
        | '+' :: digits => if digits ≠ [] ∧ digits.all Char.isDigit
            then some (Nat.ofDigitChars 10 digits 0) else none
        | digits => if digits ≠ [] ∧ digits.all Char.isDigit
            then some (Nat.ofDigitChars 10 digits 0) else none
      else none

def scanFloat (neg : Bool) (text : Text) : Option Fp :=
  let lower := text.map Char.toLower
  if lower = "inf".toList ∨ lower = "infinity".toList then some (.inf neg)
  else if lower = "nan".toList then some (.nan neg)
  else
    let whole := text.takeWhile Char.isDigit
    let more := text.dropWhile Char.isDigit
    let (fraction,exponent) := match more with
      | '.' :: rest => (rest.takeWhile Char.isDigit,rest.dropWhile Char.isDigit)
      | rest => ([],rest)
    if whole = [] ∧ fraction = [] then none
    else do
      let e ← scanExponent exponent
      let value : ℚ := Nat.ofDigitChars 10 (whole ++ fraction) 0
      some (round neg (value * 10^(e - fraction.length)))

/- Python's float() of a string; none is a ValueError. -/
def pyFloat (text : Text) : Option Fp :=
  match strip text with
  | '-' :: rest => scanFloat true rest
  | '+' :: rest => scanFloat false rest
  | rest => scanFloat false rest

theorem roundHalfEvenInt (n : Int) : roundHalfEven (n : ℚ) = n := by
  simp [roundHalfEven]

theorem roundExact {n : Nat} (small : n ≤ 2^53) : roundMag (n : ℚ) = n := by
  by_cases zero : n = 0
  · subst zero
    simp [roundMag,roundHalfEven]
  · have spaced : spacing (n : ℚ) = (Nat.log 2 n : Int) - 52 := by
      unfold spacing
      rw [Int.log_natCast]
      omega
    have size : Nat.log 2 n ≤ 53 := by
      have := Nat.log_mono_right (b := 2) small
      rwa [Nat.log_pow (by omega)] at this
    have whole : ∃ k : Int, (n : ℚ) / 2 ^ spacing (n : ℚ) = k := by
      by_cases fits : Nat.log 2 n ≤ 52
      · obtain ⟨d,same⟩ := Nat.exists_eq_add_of_le fits
        have exponent : spacing (n : ℚ) = -(d : Int) := by rw [spaced]; omega
        refine ⟨n * 2^d,?_⟩
        rw [exponent,zpow_neg,zpow_natCast,div_inv_eq_mul]
        push_cast
        ring
      · have top : 2^53 ≤ n := by
          have := Nat.pow_log_le_self 2 zero
          rwa [show Nat.log 2 n = 53 by omega] at this
        have exponent : spacing (n : ℚ) = 1 := by rw [spaced]; omega
        have same : n = 2^53 := by omega
        refine ⟨2^52,?_⟩
        rw [exponent,same]
        norm_num
    obtain ⟨k,quotient⟩ := whole
    have positive : (2 : ℚ) ^ spacing (n : ℚ) ≠ 0 := zpow_ne_zero _ (by norm_num)
    unfold roundMag
    rw [quotient,roundHalfEvenInt,← quotient]
    field_simp

theorem digitLower {c : Char} (digit : c.isDigit = true) : c.toLower = c := by
  have range : c.val ≤ 57 := by
    simp only [Char.isDigit,Bool.and_eq_true,decide_eq_true_eq] at digit
    exact digit.2
  have notUpper : ¬ (c.val ≥ 'A'.val ∧ c.val ≤ 'Z'.val) := by
    intro upper
    have below : (65 : UInt32) ≤ 57 := UInt32.le_trans upper.1 range
    exact absurd below (by decide)
  unfold Char.toLower
  rw [dif_neg notUpper]

theorem scanFloatDigits (neg : Bool) {d : Char} {rest : Text} (digit : d.isDigit = true) :
    scanFloat neg (d :: rest) =
      (let whole := (d :: rest).takeWhile Char.isDigit
       let more := (d :: rest).dropWhile Char.isDigit
       let (fraction,exponent) := match more with
        | '.' :: rest => (rest.takeWhile Char.isDigit,rest.dropWhile Char.isDigit)
        | rest => ([],rest)
       do
        let e ← scanExponent exponent
        let value : ℚ := Nat.ofDigitChars 10 (whole ++ fraction) 0
        some (round neg (value * 10^(e - fraction.length)))) := by
  have letter {c : Char} {tail : Text} (other : c.isDigit = false) :
      (d :: rest).map Char.toLower ≠ c :: tail := by
    intro same
    rw [List.map_cons,digitLower digit] at same
    rw [(List.cons.inj same).1,other] at digit
    cases digit
  have notInf : ¬ ((d :: rest).map Char.toLower = "inf".toList ∨
      (d :: rest).map Char.toLower = "infinity".toList) := by
    rintro (same | same)
    · exact letter (c := 'i') rfl same
    · exact letter (c := 'i') rfl same
  have notNan : (d :: rest).map Char.toLower ≠ "nan".toList := letter (c := 'n') rfl
  have some_ : (d :: rest).takeWhile Char.isDigit ≠ [] := by simp [List.takeWhile,digit]
  unfold scanFloat
  simp only [if_neg notInf,if_neg notNan,some_,false_and,if_false]

theorem dropNone {p : Char → Bool} {text : Text} (plain : ∀ c ∈ text, p c = false) :
    text.dropWhile p = text := by
  cases text with
  | nil => rfl
  | cons c rest => simp [plain c List.mem_cons_self]

theorem stripLine {text : Text} (plain : ∀ c ∈ text, isSpace c = false) :
    strip (text ++ ['\n']) = text := by
  have back : ∀ c ∈ text.reverse, isSpace c = false := fun c inside =>
    plain c (List.mem_reverse.mp inside)
  cases text with
  | nil => rfl
  | cons c rest =>
    have kept : (c :: rest ++ ['\n']).dropWhile isSpace = c :: rest ++ ['\n'] := by
      simp [plain c List.mem_cons_self]
    have newline : isSpace '\n' = true := rfl
    rw [strip,kept,List.reverse_append]
    simp only [List.reverse_singleton,List.singleton_append,List.dropWhile,newline]
    rw [dropNone back,List.reverse_reverse]

theorem digitPlain {c : Char} (digit : c.isDigit = true) : isSpace c = false := by
  cases blank : isSpace c with
  | false => rfl
  | true =>
    simp only [isSpace,Bool.or_eq_true,decide_eq_true_eq] at blank
    rcases blank with ((((h | h) | h) | h) | h) | h <;> (subst h; cases digit)

theorem digitsOf (n : Nat) : ∃ d ds, Nat.toDigits 10 n = d :: ds ∧
    ∀ c ∈ d :: ds, c.isDigit = true := by
  obtain ⟨d,ds,digits⟩ := List.exists_cons_of_ne_nil (Nat.toDigits_ne_nil (n := n) (b := 10))
  refine ⟨d,ds,digits,fun c inside => ?_⟩
  rw [← digits] at inside
  exact Nat.isDigit_of_mem_toDigits (by omega) (by omega) inside

theorem pyFloatSigned (neg : Bool) {d : Char} {rest : Text} (digit : d.isDigit = true)
    (plain : ∀ c ∈ rest, isSpace c = false) :
    pyFloat (signText neg ++ d :: rest ++ ['\n']) = scanFloat neg (d :: rest) := by
  have noSign : d ≠ '-' ∧ d ≠ '+' := by
    constructor
    · intro h; subst h; cases digit
    · intro h; subst h; cases digit
  have whole : ∀ c ∈ signText neg ++ d :: rest, isSpace c = false := by
    intro c inside
    rcases List.mem_append.mp inside with sign | inside
    · cases neg with
      | false => cases sign
      | true =>
        have : c = '-' := by simpa [signText] using sign
        subst this; rfl
    · rcases List.mem_cons.mp inside with rfl | inside
      · exact digitPlain digit
      · exact plain c inside
  rw [pyFloat,stripLine whole]
  cases neg with
  | true => rfl
  | false =>
    simp only [signText,Bool.false_eq_true,if_false,List.nil_append]
    split
    · rename_i same; exact absurd (List.cons.inj same).1 noSign.1
    · rename_i same; exact absurd (List.cons.inj same).1 noSign.2
    · rfl

theorem pyFloatDecimal {n : Int} (small : n.natAbs ≤ 2^53) :
    pyFloat (decimal n ++ ['\n']) = some (Fp.ofInt n) := by
  obtain ⟨d,ds,digits,digit⟩ := digitsOf n.natAbs
  have shape : decimal n = signText (n < 0) ++ d :: ds := by
    unfold decimal signText
    rw [digits]
    by_cases negative : n < 0 <;> simp [negative]
  have plain : ∀ c ∈ ds, isSpace c = false := fun c inside =>
    digitPlain (digit c (List.mem_cons_of_mem _ inside))
  have whole : (d :: ds).takeWhile Char.isDigit = d :: ds := List.takeWhile_eq_self_iff.mpr digit
  have none : (d :: ds).dropWhile Char.isDigit = [] := List.dropWhile_eq_nil_iff.mpr digit
  have value : Nat.ofDigitChars 10 (d :: ds) 0 = n.natAbs := by
    rw [← digits,Nat.ofDigitChars_ten_toDigits]
  have fits : ¬ (2 : ℚ)^1024 ≤ n.natAbs := by
    have bounded : (n.natAbs : ℚ) ≤ 2^53 := by exact_mod_cast small
    exact not_le.mpr (lt_of_le_of_lt bounded (pow_lt_pow_right₀ (by norm_num) (by norm_num)))
  rw [shape,pyFloatSigned _ (digit d List.mem_cons_self) plain,
    scanFloatDigits _ (digit d List.mem_cons_self)]
  simp only [whole,none,List.append_nil,scanExponent,value]
  simp only [List.length_nil,Nat.cast_zero,sub_zero,zpow_zero,mul_one,Option.bind_eq_bind,
    Option.bind_some,round,roundExact small,if_neg fits,Fp.ofInt]

theorem sixDigits (n : Nat) : ∀ c ∈ six n, c.isDigit = true := by
  intro c inside
  exact Nat.isDigit_of_mem_toDigits (by omega) (by omega) (List.mem_of_mem_tail inside)

theorem pyFloatPrinted (x : Fp) : (pyFloat (printF x ++ ['\n'])).isSome := by
  cases x with
  | fin neg q =>
    obtain ⟨d,ds,digits,digit⟩ := digitsOf ((roundHalfEven (q * 10^6)).toNat / 10^6)
    have frac := sixDigits ((roundHalfEven (q * 10^6)).toNat % 10^6)
    have shape : printF (.fin neg q) ++ ['\n'] = signText neg ++ d :: (ds ++ '.' ::
        six ((roundHalfEven (q * 10^6)).toNat % 10^6)) ++ ['\n'] := by
      simp only [printF,digits,List.append_assoc,List.cons_append]
    generalize six ((roundHalfEven (q * 10^6)).toNat % 10^6) = fraction at frac shape
    have plain : ∀ c ∈ ds ++ '.' :: fraction, isSpace c = false := by
      intro c inside
      rcases List.mem_append.mp inside with inside | inside
      · exact digitPlain (digit c (List.mem_cons_of_mem _ inside))
      · rcases List.mem_cons.mp inside with rfl | inside
        · rfl
        · exact digitPlain (frac c inside)
    have more : (d :: (ds ++ '.' :: fraction)).dropWhile Char.isDigit = '.' :: fraction := by
      rw [← List.cons_append,List.dropWhile_append_of_pos digit]
      rfl
    have none : fraction.dropWhile Char.isDigit = [] := List.dropWhile_eq_nil_iff.mpr frac
    rw [shape,pyFloatSigned neg (digit d List.mem_cons_self) plain,
      scanFloatDigits neg (digit d List.mem_cons_self)]
    simp only [more,none,scanExponent]
    rfl
  | inf neg => cases neg <;> decide +kernel
  | nan neg => cases neg <;> decide +kernel

end Autonomizer.Binary64
