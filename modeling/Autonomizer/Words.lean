import Mathlib
import Autonomizer.LoadStore
import Autonomizer.VBits

/-! Every handler of a load answers the taint of its bytes, and every handler of a store
writes that of its bytes, by whichever of the ways through it. -/
namespace Autonomizer.Words
open LoadStore SecMaps ShadowMemory Spans Total VBits

def byteAt (v : ULong) (i : Nat) : UChar := (v >>> (8 * i)).setWidth 8

theorem byteFirst (v : ULong) (x : UChar) : byteAt ((v <<< 8) ||| x.setWidth 64) 0 = x := by
  ext i here
  simp [byteAt]

theorem byteBehind (v : ULong) (x : UChar) {i : Nat} (inside : i + 1 < 8) :
    byteAt ((v <<< 8) ||| x.setWidth 64) (i + 1) = byteAt v i := by
  ext j here
  have above : ¬ 8 * (i + 1) + j < 8 := by omega
  have below : 8 * (i + 1) + j < 64 := by omega
  have back : 8 * (i + 1) + j - 8 = 8 * i + j := by omega
  have lower : 8 * i + j < 64 := by omega
  have gone : x.getLsbD (8 * (i + 1) + j) = false := BitVec.getLsbD_of_ge _ _ (by omega)
  simp [byteAt,above,below,back,gone,BitVec.getLsbD_eq_getElem lower]

theorem byteShift (v : ULong) (i : Nat) : byteAt (v >>> 8) i = byteAt v (i + 1) := by
  rw [byteAt,byteAt,← BitVec.shiftRight_add]
  congr 2
  omega

section
variable {szB i : Nat} {bigendian : Bool}

theorem offsetBelow (bigendian : Bool) (inside : i < szB) : byteOffsetW szB bigendian i < szB := by
  rw [byteOffsetW]
  split <;> omega

theorem offsetTwice (inside : i < szB) : byteOffsetW szB bigendian (byteOffsetW szB bigendian i) = i := by
  rw [byteOffsetW,byteOffsetW]
  split <;> omega

/- The word that a load of szB bytes gives, as far as it is the bytes. -/
def Loaded (f : Addr → UChar) (a : Addr) (szB : Nat) (bigendian : Bool) (r : ULong) : Prop :=
  ∀ i < szB, byteAt r i = f (a + BitVec.ofNat 64 (byteOffsetW szB bigendian i))

/- The taint after a store of the low szB bytes of a word. -/
def stored (f : Addr → UChar) (a : Addr) (szB : Nat) (bigendian : Bool) (v : ULong) : Addr → UChar :=
  overwrite f a szB (fun i => byteAt v (byteOffsetW szB bigendian i))

variable {s : ShadowMem} {f : Addr → UChar} {a : Addr}

theorem loadsOn (taints : Taints f s) {v : ULong} (short : i ≤ 8) :
    Ends (loadBytes a szB bigendian i v) s (fun r t => Taints f t ∧
      (∀ j < i, byteAt r j = f (a + BitVec.ofNat 64 (byteOffsetW szB bigendian j))) ∧
      ∀ j < 8, i ≤ j → byteAt r j = byteAt v (j - i)) := by
  induction i generalizing s v with
  | zero => exact endsPure ⟨taints,nofun,fun j _ _ => rfl⟩
  | succ i ih =>
    unfold loadBytes
    refine endsBind (getsByte taints _) ?_
    rintro ⟨ok,vbits8⟩ t ⟨rfl,after⟩
    refine endsMono (ih after (by omega)) ?_
    rintro r u ⟨last,bytes,rest⟩
    refine ⟨last,fun j below => ?_,fun j inside above => ?_⟩
    · by_cases here : j = i
      · subst here
        rw [rest j (by omega) le_rfl,Nat.sub_self,byteFirst]
      · exact bytes j (by omega)
    · have behind : j - i = j - (i + 1) + 1 := by omega
      rw [rest j inside (by omega),behind,byteBehind _ _ (by omega)]

theorem loadsBytes (taints : Taints f s) (short : szB ≤ 8) {v : ULong} :
    Ends (loadBytes a szB bigendian szB v) s (fun r t => Taints f t ∧ Loaded f a szB bigendian r) :=
  endsMono (loadsOn taints short) fun _ _ ⟨after,bytes,_⟩ => ⟨after,bytes⟩

theorem storesOn (taints : Taints f s) {k : Nat} {v : ULong} (left : k ≤ szB) (short : szB ≤ 8) :
    Ends (storeBytes a szB bigendian k v) s (fun _ t => Taints (fun b =>
      if Within a szB b ∧ szB - k ≤ byteOffsetW szB bigendian (b - a).toNat
      then byteAt v (byteOffsetW szB bigendian (b - a).toNat - (szB - k)) else f b) t) := by
  induction k generalizing s f v with
  | zero =>
    refine endsPure ?_
    have none_ : (fun b => if Within a szB b ∧ szB - 0 ≤ byteOffsetW szB bigendian (b - a).toNat
        then byteAt v (byteOffsetW szB bigendian (b - a).toNat - (szB - 0)) else f b) = f := by
      funext b
      refine if_neg fun ⟨inside,above⟩ => ?_
      have := offsetBelow bigendian inside
      omega
    rwa [none_]
  | succ k ih =>
    unfold storeBytes
    refine endsBind (setsByte taints _ _) ?_
    intro _ t after
    have more := ih after (v := v >>> 8) (by omega)
    refine endsMono more fun _ u done => ?_
    convert done using 1
    funext b
    have first : szB - (k + 1) < szB := by omega
    have own : b = a + BitVec.ofNat 64 (byteOffsetW szB bigendian (szB - (k + 1))) ↔
        Within a szB b ∧ byteOffsetW szB bigendian (b - a).toNat = szB - (k + 1) := by
      have small := offsetBelow bigendian first
      constructor
      · rintro rfl
        refine ⟨withinNth (by omega) small,?_⟩
        rw [offset (by omega),offsetTwice first]
      · rintro ⟨inside,same⟩
        rw [← same,offsetTwice inside,atOffset]
    rw [Function.update_apply]
    simp only [own]
    generalize byteOffsetW szB bigendian (b - a).toNat = j
    by_cases inside : Within a szB b
    · rcases Nat.lt_trichotomy j (szB - (k + 1)) with below | here | above
      · rw [if_neg (by omega),if_neg (by omega),if_neg (by omega)]
      · rw [if_pos ⟨inside,by omega⟩,if_neg (by omega),if_pos ⟨inside,here⟩,here,Nat.sub_self]
        rfl
      · have behind : j - (szB - (k + 1)) = j - (szB - k) + 1 := by omega
        rw [if_pos ⟨inside,by omega⟩,if_pos ⟨inside,by omega⟩,byteShift,behind]
    · rw [if_neg fun both => inside both.1,if_neg fun both => inside both.1,if_neg fun both => inside both.1]

theorem storesBytes (taints : Taints f s) (short : szB ≤ 8) {v : ULong} :
    Ends (storeBytes a szB bigendian szB v) s (fun _ t => Taints (stored f a szB bigendian v) t) := by
  refine endsMono (storesOn taints le_rfl short) fun _ t after => ?_
  unfold stored overwrite
  simpa only [Nat.sub_self,Nat.zero_le,and_true,Nat.sub_zero] using after

def taintOf : Dsm → UChar
  | .noAccess => vBits8Untainted
  | .tainted => vBits8Tainted
  | .untainted => vBits8Untainted

/- The 16 bits of eight such bytes. -/
def vaBits16 : Dsm → BitVec 16
  | .noAccess => vaBits16NoAccess
  | .tainted => vaBits16Tainted
  | .untainted => vaBits16Untainted

theorem laneFull (d : Dsm) (b : Addr) : extractVabits2FromVabits8 b d.vaBits8 = d.vaBits2 := by
  have lanes : ∀ d : Dsm, ∀ j < 4, (3 : UChar) &&& (d.vaBits8 >>> (2 * j)) = d.vaBits2 := by
    intro d
    cases d <;> decide +kernel
  rw [extractVabits2FromVabits8,laneNat]
  exact lanes d _ (Nat.mod_lt _ (by decide))

theorem pairNat (a : Addr) : ((a &&& 2) <<< 1).toNat = 4 * (a.toNat % 4 / 2) := by
  have low : (a &&& 3).toNat = a.toNat % 4 :=
    masked (show (3 : Addr) = BitVec.setWidth 64 (BitVec.allOnes 2) from rfl) (by decide) a
  have part : a &&& 2 = (a &&& 3) &&& 2 := by rw [BitVec.and_assoc]; rfl
  have bit : ∀ x < 4, x &&& 2 = 2 * (x / 2) := by decide
  have half : (a &&& 2).toNat = 2 * (a.toNat % 4 / 2) := by
    rw [part,BitVec.toNat_and,low]
    exact bit _ (Nat.mod_lt _ (by decide))
  rw [BitVec.toNat_shiftLeft,half,Nat.shiftLeft_eq]
  omega

variable {b : Addr} {d : Dsm}

theorem wordFull (full : chunk s a (smOff a) = d.vaBits8) (here : b.toNat / 4 = a.toNat / 4) :
    va2 s b = d.vaBits2 := by
  obtain ⟨slot,off⟩ := wordSame.mpr here
  rw [va2,chunk,secmap,slot,off,← secmap,← chunk,full,laneFull]

theorem pairFull {v4 : UChar} (constant : v4 = vaBits4Tainted ∧ d = .tainted ∨ v4 = vaBits4Untainted ∧ d = .untainted)
    (full : extractVabits4FromVabits8 a (chunk s a (smOff a)) = v4) (here : b.toNat / 2 = a.toNat / 2) :
    va2 s b = d.vaBits2 := by
  obtain ⟨slot,off⟩ := wordSame.mpr (show b.toNat / 4 = a.toNat / 4 by omega)
  rw [va2,chunk,secmap,slot,off,← secmap,← chunk]
  generalize chunk s a (smOff a) = x at full
  have lanes : ∀ x : UChar, ∀ i < 4, ∀ j < 4, i / 2 = j / 2 →
      ((0xf : UChar) &&& (x >>> (4 * (i / 2))) = vaBits4Tainted → 3 &&& (x >>> (2 * j)) = vaBits2Tainted) ∧
      ((0xf : UChar) &&& (x >>> (4 * (i / 2))) = vaBits4Untainted →
        3 &&& (x >>> (2 * j)) = vaBits2Untainted) := by decide +kernel
  rw [extractVabits4FromVabits8,pairNat] at full
  rw [extractVabits2FromVabits8,laneNat]
  obtain ⟨tainted,untainted⟩ := lanes x (a.toNat % 4) (Nat.mod_lt _ (by decide)) (b.toNat % 4)
    (Nat.mod_lt _ (by decide)) (by omega)
  rcases constant with ⟨rfl,rfl⟩ | ⟨rfl,rfl⟩
  · exact tainted full
  · exact untainted full

theorem halfOff (here : b.toNat / 8 = a.toNat / 8) :
    slotOf b = slotOf a ∧ (smOff b = 2 * smOff16 a ∨ smOff b = 2 * smOff16 a + 1) := by
  rw [slotSame,smOffNat,smOff16Nat]
  omega

theorem longFull (full : s.vabits16 (secmap s a) (smOff16 a) = vaBits16 d)
    (here : b.toNat / 8 = a.toNat / 8) : va2 s b = d.vaBits2 := by
  have twice : vaBits16 d = (d.vaBits8 ++ d.vaBits8 : BitVec (8 + 8)) := by cases d <;> rfl
  rw [ShadowMem.vabits16,twice] at full
  have high := congrArg (BitVec.extractLsb' 8 8) full
  have low := congrArg (BitVec.extractLsb' 0 8) full
  rw [BitVec.extractLsb'_append_eq_left,BitVec.extractLsb'_append_eq_left] at high
  rw [BitVec.extractLsb'_append_eq_right,BitVec.extractLsb'_append_eq_right] at low
  obtain ⟨slot,first | second⟩ := halfOff here
  · rw [va2,chunk,secmap,slot,first,← secmap,low,laneFull]
  · rw [va2,chunk,secmap,slot,second,← secmap,high,laneFull]

theorem wholeTaint (taints : Taints f s) (bits : va2 s b = d.vaBits2) : f b = taintOf d := by
  rw [← taints.taint,vbits,bits]
  cases d <;> rfl

theorem wholeLoaded (taints : Taints f s) {n : Nat} (short : n ≤ 8) (aligned : isAligned n a)
    (power : n ∣ 2 ^ 64) (bits : ∀ b : Addr, b.toNat / n = a.toNat / n → va2 s b = d.vaBits2) {r : ULong}
    (bytes : ∀ i < n, byteAt r i = taintOf d) : Loaded f a n bigendian r := by
  intro i inside
  have there := withinNth (a := a) (w := 64) (by omega) (offsetBelow bigendian inside)
  rw [withinBlock aligned power] at there
  rw [bytes i inside,wholeTaint taints (bits _ there)]

theorem wholeStored {t : ShadowMem} (taints : Taints f s) {n : Nat} {v : ULong} (maps : Maps t)
    (table : t.secVBitTable = s.secVBitTable) (bits : va2 t = overwrite (va2 s) a n (fun _ => d.vaBits2))
    (bytes : ∀ i < n, byteAt v i = taintOf d) : Taints (stored f a n bigendian v) t := by
  have small : d.vaBits2 < 3 := by cases d <;> decide
  have kind : byteOf d.vaBits2 none = taintOf d := by cases d <;> rfl
  have after := plainTaints taints maps table small bits
  rw [kind] at after
  rwa [stored,overwriteSame fun i inside => bytes _ (offsetBelow bigendian inside)]

theorem wholeThere (taints : Taints f s) {n : Nat} {v : ULong} (aligned : isAligned n a) (power : n ∣ 2 ^ 64)
    (bits : ∀ b : Addr, b.toNat / n = a.toNat / n → va2 s b = d.vaBits2)
    (bytes : ∀ i < n, byteAt v i = taintOf d) : stored f a n bigendian v = f := by
  funext b
  rw [stored,overwrite]
  by_cases inside : Within a n b
  · rw [if_pos inside,bytes _ (offsetBelow bigendian inside)]
    rw [withinBlock aligned power] at inside
    exact (wholeTaint taints (bits b inside)).symm
  · rw [if_neg inside]

section
variable {n off : Nat} {v : UChar}

theorem putBits (maps : Maps s) (there : s.at_ (slotOf a) = some (.allocated n)) (b : Addr) :
    va2 (s.put (.allocated n) off v) b =
      if slotOf b = slotOf a ∧ smOff b = off then extractVabits2FromVabits8 b v else va2 s b := by
  rw [va2,putChunk maps there]
  split <;> rfl

theorem putSlots (p : Slot) : (s.put (.allocated n) off v).at_ p = s.at_ p := by
  cases p <;> rfl

theorem ownChunk (there : s.at_ (slotOf a) = some (.allocated n)) (i : Nat) :
    s.vabits8 (.allocated n) i = chunk s a i := by
  rw [chunk,secmap,there,Option.getD_some]

theorem putWord (maps : Maps s) (there : s.at_ (slotOf a) = some (.allocated n)) (aligned : isAligned 4 a) :
    va2 (s.put (.allocated n) (smOff a) d.vaBits8) = overwrite (va2 s) a 4 (fun _ => d.vaBits2) := by
  funext b
  rw [putBits maps there,overwrite,laneFull]
  simp only [withinBlock aligned (show 4 ∣ 2 ^ 64 by decide),wordSame]

theorem putLong (maps : Maps s) (there : s.at_ (slotOf a) = some (.allocated n)) (aligned : isAligned 8 a) :
    va2 (s.put16 (.allocated n) (smOff16 a) (vaBits16 d)) = overwrite (va2 s) a 8 (fun _ => d.vaBits2) ∧
      Maps (s.put16 (.allocated n) (smOff16 a) (vaBits16 d)) := by
  have low : (vaBits16 d).setWidth 8 = d.vaBits8 := by cases d <;> rfl
  have high : (vaBits16 d >>> 8).setWidth 8 = d.vaBits8 := by cases d <;> rfl
  rw [ShadowMem.put16,low,high]
  refine ⟨?_,putMaps (putMaps maps)⟩
  funext b
  have slot : (s.put (.allocated n) (2 * smOff16 a) d.vaBits8).at_ (slotOf a) = some (.allocated n) := by
    rw [putSlots,there]
  have halves : b.toNat / 8 = a.toNat / 8 ↔ (slotOf b = slotOf a ∧ smOff b = 2 * smOff16 a + 1) ∨
      (slotOf b = slotOf a ∧ smOff b = 2 * smOff16 a) := by
    rw [slotSame,smOffNat,smOff16Nat]
    omega
  rw [putBits (putMaps maps) slot,putBits maps there,overwrite,laneFull]
  simp only [withinBlock aligned (show 8 ∣ 2 ^ 64 by decide),halves]
  by_cases second : slotOf b = slotOf a ∧ smOff b = 2 * smOff16 a + 1
  · rw [if_pos second,if_pos (.inl second)]
  · by_cases first : slotOf b = slotOf a ∧ smOff b = 2 * smOff16 a
    · rw [if_neg second,if_pos first,if_pos (.inr first)]
    · rw [if_neg second,if_neg first,if_neg (not_or.mpr ⟨second,first⟩)]

theorem putPair (maps : Maps s) (there : s.at_ (slotOf a) = some (.allocated n)) (aligned : isAligned 2 a)
    {v4 : UChar} (constant : v4 = vaBits4Tainted ∧ d = .tainted ∨ v4 = vaBits4Untainted ∧ d = .untainted) :
    va2 (s.put (.allocated n) (smOff a) (insertVabits4IntoVabits8 a v4 (s.vabits8 (.allocated n) (smOff a)))) =
      overwrite (va2 s) a 2 (fun _ => d.vaBits2) := by
  funext b
  rw [putBits maps there,overwrite,ownChunk there]
  simp only [withinBlock aligned (show 2 ∣ 2 ^ 64 by decide),wordSame]
  have lanes : ∀ x : UChar, ∀ i < 4, ∀ j < 4, i % 2 = 0 →
      (3 : UChar) &&& (((x &&& ~~~((0xf : UChar) <<< (4 * (i / 2)))) ||| (vaBits4Tainted <<< (4 * (i / 2)))) >>> (2 * j)) =
        (if j / 2 = i / 2 then vaBits2Tainted else 3 &&& (x >>> (2 * j))) ∧
      (3 : UChar) &&& (((x &&& ~~~((0xf : UChar) <<< (4 * (i / 2)))) ||| (vaBits4Untainted <<< (4 * (i / 2)))) >>> (2 * j)) =
        (if j / 2 = i / 2 then vaBits2Untainted else 3 &&& (x >>> (2 * j))) := by decide +kernel
  have even : a.toNat % 4 % 2 = 0 := by
    have := aligned
    unfold isAligned at this
    omega
  by_cases word : b.toNat / 4 = a.toNat / 4
  · have lane : b.toNat % 4 / 2 = a.toNat % 4 / 2 ↔ b.toNat / 2 = a.toNat / 2 := by omega
    obtain ⟨slot,off⟩ := wordSame.mpr word
    have own : va2 s b = 3 &&& (chunk s a (smOff a) >>> (2 * (b.toNat % 4))) := by
      rw [va2,chunk,secmap,slot,off,← secmap,← chunk,extractVabits2FromVabits8,laneNat]
    obtain ⟨tainted,untainted⟩ := lanes (chunk s a (smOff a)) (a.toNat % 4) (Nat.mod_lt _ (by decide))
      (b.toNat % 4) (Nat.mod_lt _ (by decide)) even
    rw [if_pos word,own,extractVabits2FromVabits8,insertVabits4IntoVabits8,laneNat,pairNat]
    simp only [← lane]
    rcases constant with ⟨rfl,rfl⟩ | ⟨rfl,rfl⟩
    · exact tainted
    · exact untainted
  · rw [if_neg word,if_neg (by omega)]

end

end

end Autonomizer.Words
