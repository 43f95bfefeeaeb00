import Mathlib

/-! Ranges of addresses, which go on at 0 behind the last address, and what is written over
them. -/
namespace Autonomizer.Spans

section
variable {w : Nat} {α : Type} {a b : BitVec w} {m n i : Nat} {f : BitVec w → α} {g : Nat → α}

theorem subNat : (b - a).toNat =
    if a.toNat ≤ b.toNat then b.toNat - a.toNat else 2 ^ w + b.toNat - a.toNat := by
  have low := a.isLt
  have high := b.isLt
  rw [BitVec.toNat_sub]
  by_cases order : a.toNat ≤ b.toNat
  · have round : 2 ^ w - a.toNat + b.toNat = b.toNat - a.toNat + 2 ^ w := by omega
    rw [if_pos order,round,Nat.add_mod_right,Nat.mod_eq_of_lt (by omega)]
  · rw [if_neg order,Nat.mod_eq_of_lt (by omega)]
    omega

theorem addNat (small : i < 2 ^ w) : (a + BitVec.ofNat w i).toNat =
    if a.toNat + i < 2 ^ w then a.toNat + i else a.toNat + i - 2 ^ w := by
  have low := a.isLt
  rw [BitVec.toNat_add,BitVec.toNat_ofNat,Nat.mod_eq_of_lt small]
  by_cases inside : a.toNat + i < 2 ^ w
  · rw [if_pos inside,Nat.mod_eq_of_lt inside]
  · rw [if_neg inside,Nat.mod_eq_sub_mod (by omega),Nat.mod_eq_of_lt (by omega)]

def Within (a : BitVec w) (n : Nat) (b : BitVec w) : Prop := (b - a).toNat < n

instance : Decidable (Within a n b) := inferInstanceAs (Decidable (_ < _))

theorem offset (small : i < 2 ^ w) : (a + BitVec.ofNat w i - a).toNat = i := by
  rw [BitVec.add_comm,BitVec.add_sub_cancel,BitVec.toNat_ofNat,Nat.mod_eq_of_lt small]

theorem atOffset : a + BitVec.ofNat w (b - a).toNat = b := by
  rw [BitVec.ofNat_toNat,BitVec.setWidth_eq,BitVec.add_comm,BitVec.sub_add_cancel]

theorem withinNth (short : n ≤ 2 ^ w) (inside : i < n) : Within a n (a + BitVec.ofNat w i) := by
  rw [Within,offset (lt_of_lt_of_le inside short)]
  exact inside

theorem withinOne : Within a 1 b ↔ b = a := by
  constructor
  · intro inside
    have none_ : (b - a).toNat = 0 := Nat.lt_one_iff.mp inside
    rw [← atOffset (a := a) (b := b),none_]
    exact BitVec.add_zero a
  · rintro rfl
    rw [Within,BitVec.sub_self]
    exact Nat.one_pos

theorem offsetSplit (fits : m < 2 ^ w) (behind : m ≤ (b - a).toNat) :
    (b - (a + BitVec.ofNat w m)).toNat = (b - a).toNat - m := by
  have low := a.isLt
  have high := b.isLt
  rw [subNat] at behind
  rw [subNat,subNat,addNat fits]
  split_ifs at behind ⊢ <;> omega

theorem withinSplit (some_ : m < 2 ^ w) :
    Within a (m + n) b ↔ Within a m b ∨ Within (a + BitVec.ofNat w m) n b := by
  have low := a.isLt
  have high := b.isLt
  rw [Within,Within,Within,subNat,subNat,addNat some_]
  split_ifs <;> omega

theorem withinApart (fits : m + n ≤ 2 ^ w) (some_ : m < 2 ^ w) (before : Within a m b) :
    ¬ Within (a + BitVec.ofNat w m) n b := by
  have low := a.isLt
  have high := b.isLt
  rw [Within,subNat] at before
  rw [Within,subNat,addNat some_]
  split_ifs at before ⊢ <;> omega

theorem withinLinear (fits : a.toNat + n ≤ 2 ^ w) :
    Within a n b ↔ a.toNat ≤ b.toNat ∧ b.toNat < a.toNat + n := by
  have high := b.isLt
  rw [Within,subNat]
  split_ifs <;> omega

theorem withinBlock (aligned : a.toNat % n = 0) (divides : n ∣ 2 ^ w) :
    Within a n b ↔ b.toNat / n = a.toNat / n := by
  obtain ⟨parts,whole⟩ := divides
  have low := a.isLt
  have positive : 0 < n := Nat.pos_of_ne_zero (by rintro rfl; simp at whole)
  have start : a.toNat = n * (a.toNat / n) := by
    have := Nat.div_add_mod a.toNat n
    omega
  have below : a.toNat / n < parts := by
    rw [Nat.div_lt_iff_lt_mul positive,Nat.mul_comm,← whole]
    exact low
  have fits : a.toNat + n ≤ 2 ^ w := by
    rw [start,whole]
    calc n * (a.toNat / n) + n = n * (a.toNat / n + 1) := by ring
      _ ≤ n * parts := Nat.mul_le_mul_left n below
  rw [withinLinear fits,Nat.div_eq_iff positive]
  have same : n * (a.toNat / n) = a.toNat / n * n := Nat.mul_comm ..
  omega

def overwrite (f : BitVec w → α) (a : BitVec w) (n : Nat) (g : Nat → α) : BitVec w → α :=
  fun b => if Within a n b then g (b - a).toNat else f b

theorem overwriteNone : overwrite f a 0 g = f := by
  funext b
  exact if_neg (Nat.not_lt_zero _)

theorem overwriteOne : overwrite f a 1 g = Function.update f a (g 0) := by
  funext b
  rw [overwrite,Function.update_apply]
  by_cases here : b = a
  · rw [if_pos (withinOne.mpr here),if_pos here,here,BitVec.sub_self]
    rfl
  · rw [if_neg (mt withinOne.mp here),if_neg here]

theorem overwriteSame {h : Nat → α} (same : ∀ i < n, g i = h i) : overwrite f a n g = overwrite f a n h := by
  funext b
  rw [overwrite,overwrite]
  by_cases inside : Within a n b
  · rw [if_pos inside,if_pos inside,same _ inside]
  · rw [if_neg inside,if_neg inside]

theorem overwriteSplit (fits : m + n ≤ 2 ^ w) (some_ : m < 2 ^ w) : overwrite f a (m + n) g =
    overwrite (overwrite f a m g) (a + BitVec.ofNat w m) n (fun i => g (m + i)) := by
  funext b
  rw [overwrite,overwrite]
  by_cases before : Within a m b
  · have apart := withinApart fits some_ before
    rw [if_pos ((withinSplit some_).mpr (.inl before)),if_neg apart,overwrite,if_pos before]
  · by_cases behind : Within (a + BitVec.ofNat w m) n b
    · rw [if_pos ((withinSplit some_).mpr (.inr behind)),if_pos behind,
        offsetSplit some_ (Nat.le_of_not_lt before),Nat.add_sub_cancel' (Nat.le_of_not_lt before)]
    · rw [if_neg fun inside => ((withinSplit some_).mp inside).elim before behind,if_neg behind,
        overwrite,if_neg before]

def moved (f : BitVec w → α) (src dst : BitVec w) (n : Nat) : BitVec w → α :=
  overwrite f dst n (fun i => f (src + BitVec.ofNat w i))

section
variable {src dst : BitVec w}

theorem movedOne : moved f src dst 1 = Function.update f dst (f src) := by
  rw [moved,overwriteOne,BitVec.add_zero]

theorem movedOnward (fits : m + n ≤ 2 ^ w) (some_ : m < 2 ^ w)
    (apart : ∀ j < n, ¬ Within dst m (src + BitVec.ofNat w (m + j))) :
    moved (moved f src dst m) (src + BitVec.ofNat w m) (dst + BitVec.ofNat w m) n = moved f src dst (m + n) := by
  unfold moved
  rw [overwriteSplit fits some_]
  refine overwriteSame fun j inside => ?_
  rw [BitVec.add_assoc,← BitVec.ofNat_add]
  exact if_neg (apart j inside)

theorem movedBack (fits : m + n ≤ 2 ^ w) (some_ : m < 2 ^ w)
    (apart : ∀ i < m, ¬ Within (dst + BitVec.ofNat w m) n (src + BitVec.ofNat w i)) :
    moved (moved f (src + BitVec.ofNat w m) (dst + BitVec.ofNat w m) n) src dst m = moved f src dst (m + n) := by
  funext b
  have low (i : Nat) (inside : i < m) : moved f (src + BitVec.ofNat w m) (dst + BitVec.ofNat w m) n
      (src + BitVec.ofNat w i) = f (src + BitVec.ofNat w i) := if_neg (apart i inside)
  have split : moved f src dst (m + n) b = overwrite (overwrite f dst m _) (dst + BitVec.ofNat w m) n _ b :=
    congrFun (overwriteSplit fits some_) b
  rw [split,moved,overwrite,overwrite]
  by_cases before : Within dst m b
  · rw [if_pos before,if_neg (withinApart fits some_ before),low _ before,overwrite,if_pos before]
  · rw [if_neg before,moved,overwrite]
    by_cases behind : Within (dst + BitVec.ofNat w m) n b
    · rw [if_pos behind,if_pos behind,BitVec.add_assoc,← BitVec.ofNat_add]
    · rw [if_neg behind,if_neg behind,overwrite,if_neg before]

end

end

end Autonomizer.Spans
