import Mathlib
import Autonomizer.AddressRange
import Autonomizer.Words

/-! One kind of taint over a range: its three parts together write it on the range and on
nothing else, and a secondary map that is given back is in no slot any more. -/
namespace Autonomizer.Ranges
open AddressRange LoadStore SecMaps ShadowMemory Spans Total VBits Words

section
variable {s : ShadowMem} {a : Addr} {d : Dsm}

def Painted (s : ShadowMem) (a : Addr) (n : Nat) (d : Dsm) (t : ShadowMem) : Prop :=
  Shows s (overwrite (va2 s) a n (fun _ => d.vaBits2)) t

theorem paintedNone (maps : Maps s) : Painted s a 0 d s := by
  refine ⟨maps,?_,rfl,rfl,rfl⟩
  rw [overwriteNone]

theorem paintedMore {t u : ShadowMem} {m n : Nat} (first : Painted s a m d t)
    (second : Painted t (a + BitVec.ofNat 64 m) n d u) (fits : m + n ≤ 2 ^ 64) (some_ : m < 2 ^ 64) :
    Painted s a (m + n) d u := by
  have both := showsTrans first second
  rw [first.bits] at both
  rwa [Painted,overwriteSplit fits some_]

theorem slotOn {i : Nat} (inside : a.toNat % 65536 + i < 65536) :
    slotOf (a + BitVec.ofNat 64 i) = slotOf a ∧ (a + BitVec.ofNat 64 i).toNat = a.toNat + i := by
  have place : (a + BitVec.ofNat 64 i).toNat = a.toNat + i := by
    have := a.isLt
    rw [addNat (by omega),if_pos (by omega)]
  rw [slotSame,place]
  exact ⟨by omega,rfl⟩

theorem onward {len k : Nat} (inside : a.toNat % 65536 + len ≤ 65536) (short : k ≤ len) :
    (a + BitVec.ofNat 64 k).toNat % 65536 + (len - k) ≤ 65536 ∧
      (0 < len - k → slotOf (a + BitVec.ofNat 64 k) = slotOf a) := by
  by_cases more : len - k = 0
  · have := Nat.mod_lt (a + BitVec.ofNat 64 k).toNat (show 0 < 65536 by decide)
    exact ⟨by omega,fun some_ => absurd more (by omega)⟩
  · obtain ⟨same,place⟩ := slotOn (a := a) (i := k) (by omega)
    exact ⟨by omega,fun _ => same⟩

section
variable {n : Nat}

theorem paintsByte (maps : Maps s) (there : s.at_ (slotOf a) = some (.allocated n)) : Painted s a 1 d
    (s.put (.allocated n) (smOff a) (insertVabits2IntoVabits8 a d.vaBits2 (s.vabits8 (.allocated n) (smOff a)))) := by
  refine ⟨putMaps maps,?_,rfl,rfl,rfl⟩
  have small : d.vaBits2 < 4 := by cases d <;> decide
  rw [putVa2 maps there small,overwriteOne]

theorem paintsLong (maps : Maps s) (there : s.at_ (slotOf a) = some (.allocated n)) (aligned : isAligned 8 a) :
    Painted s a 8 d (s.put16 (.allocated n) (smOff16 a) (vaBits16 d)) := by
  obtain ⟨bits,kept⟩ := putLong (d := d) maps there aligned
  exact ⟨kept,bits,rfl,rfl,rfl⟩

theorem paintsToAligned (maps : Maps s) {len : Nat} (inside : a.toNat % 65536 + len ≤ 65536)
    (there : 0 < len → s.at_ (slotOf a) = some (.allocated n)) :
    Ends (loop1a (.allocated n) d.vaBits2 a len) s (fun r t => ∃ k ≤ len,
      r = (a + BitVec.ofNat 64 k,len - k) ∧ Painted s a k d t ∧ t.at_ = s.at_ ∧
      (len - k = 0 ∨ isAligned 8 (a + BitVec.ofNat 64 k))) := by
  have none_ : a + BitVec.ofNat 64 0 = a := BitVec.add_zero a
  induction len generalizing s a with
  | zero => exact endsPure ⟨0,le_rfl,by rw [none_],paintedNone maps,rfl,.inl rfl⟩
  | succ len ih =>
    unfold loop1a
    refine endsIte (fun aligned => endsPure ⟨0,Nat.zero_le _,by rw [none_]; rfl,paintedNone maps,rfl,.inr ?_⟩) fun _ => ?_
    · rwa [none_]
    · have slot := there (Nat.succ_pos _)
      refine endsBind (endsModify (P := fun _ t => Painted s a 1 d t ∧ t.at_ = s.at_)
        ⟨paintsByte maps slot,funext putSlots⟩) ?_
      rintro _ t ⟨first,slots⟩
      obtain ⟨room,same⟩ := onward (k := 1) inside (by omega)
      refine endsMono (ih first.maps room (fun more => ?_) (BitVec.add_zero _)) ?_
      · rw [slots]
        exact (congrArg s.at_ (same more)).trans slot
      rintro r u ⟨k,short,rfl,rest,same,stop⟩
      have place : a + 1 + BitVec.ofNat 64 k = a + BitVec.ofNat 64 (1 + k) := by
        rw [BitVec.ofNat_add,BitVec.add_assoc]
        rfl
      have low := a.isLt
      refine ⟨1 + k,by omega,?_,paintedMore first rest (by omega) (by decide),same.trans slots,?_⟩
      · rw [place,show len + 1 - (1 + k) = len - k by omega]
      · rw [← place,show len + 1 - (1 + k) = len - k by omega]
        exact stop

theorem paintsLongs (maps : Maps s) {len : Nat} (inside : a.toNat % 65536 + len ≤ 65536)
    (there : 0 < len → s.at_ (slotOf a) = some (.allocated n)) (aligned : len = 0 ∨ isAligned 8 a) :
    Ends (loop8 (.allocated n) (vaBits16 d) a len) s (fun r t => ∃ k ≤ len,
      r = (a + BitVec.ofNat 64 k,len - k) ∧ Painted s a k d t ∧ t.at_ = s.at_) := by
  fun_induction loop8 (.allocated n) (vaBits16 d) a len generalizing s with
  | case1 a len ih =>
    have eight : isAligned 8 a := aligned.resolve_left (by omega)
    have slot := there (by omega)
    refine endsModifyBind ?_
    have first := paintsLong (d := d) maps slot eight
    have slots : (s.put16 (.allocated n) (smOff16 a) (vaBits16 d)).at_ = s.at_ :=
      funext fun p => (putSlots p).trans (putSlots p)
    generalize s.put16 (.allocated n) (smOff16 a) (vaBits16 d) = t at first slots
    by_cases more : len = 0
    · subst more
      exact endsPure ⟨8,le_rfl,rfl,first,slots⟩
    · have same : slotOf (a + 8) = slotOf a := (slotOn (i := 8) (by omega)).1
      have place : (a + 8).toNat = a.toNat + 8 := (slotOn (i := 8) (by omega)).2
      unfold isAligned at eight
      have next : isAligned 8 (a + 8) := by
        unfold isAligned
        omega
      refine endsMono (ih first.maps (by omega) (fun _ => by rw [slots,same,slot]) (.inr next)) ?_
      intro r u ⟨k,short,ends,rest,kept⟩
      have behind : a + 8 + BitVec.ofNat 64 k = a + BitVec.ofNat 64 (8 + k) := by
        rw [BitVec.ofNat_add,BitVec.add_assoc]
        rfl
      have low := a.isLt
      refine ⟨8 + k,by omega,?_,paintedMore first rest (by omega) (by decide),kept.trans slots⟩
      rw [ends,behind,show len + 8 - (8 + k) = len - k by omega]
  | case2 a len few =>
    refine endsPure ⟨0,Nat.zero_le _,?_,paintedNone maps,rfl⟩
    rw [show a + BitVec.ofNat 64 0 = a from BitVec.add_zero a]
    rfl

theorem paintsBytes (maps : Maps s) {len : Nat} (inside : a.toNat % 65536 + len ≤ 65536)
    (there : 0 < len → s.at_ (slotOf a) = some (.allocated n)) :
    Ends (loop1 (.allocated n) d.vaBits2 a len) s (fun r t =>
      r = a + BitVec.ofNat 64 len ∧ Painted s a len d t ∧ t.at_ = s.at_) := by
  induction len generalizing s a with
  | zero => exact endsPure ⟨(BitVec.add_zero a).symm,paintedNone maps,rfl⟩
  | succ len ih =>
    unfold loop1
    have slot := there (Nat.succ_pos _)
    refine endsModifyBind ?_
    have first := paintsByte (d := d) maps slot
    have slots : (s.put (.allocated n) (smOff a)
        (insertVabits2IntoVabits8 a d.vaBits2 (s.vabits8 (.allocated n) (smOff a)))).at_ = s.at_ := funext putSlots
    generalize s.put (.allocated n) (smOff a)
      (insertVabits2IntoVabits8 a d.vaBits2 (s.vabits8 (.allocated n) (smOff a))) = t at first slots
    obtain ⟨room,same⟩ := onward (k := 1) inside (by omega)
    refine endsMono (ih first.maps room fun more => ?_) ?_
    · rw [slots]
      exact (congrArg s.at_ (same more)).trans slot
    intro r u ⟨ends,rest,kept⟩
    have low := a.isLt
    rw [Nat.add_comm len 1]
    refine ⟨?_,paintedMore first rest (by omega) (by decide),kept.trans slots⟩
    rw [ends,BitVec.ofNat_add,← BitVec.add_assoc]
    rfl

theorem paintsPart (maps : Maps s) {len : Nat} (inside : a.toNat % 65536 + len ≤ 65536)
    (there : 0 < len → s.at_ (slotOf a) = some (.allocated n)) :
    Ends (do
      let (a,lenA) ← loop1a (.allocated n) d.vaBits2 a len
      let (a,lenA) ← loop8 (.allocated n) (vaBits16 d) a lenA
      loop1 (.allocated n) d.vaBits2 a lenA : Tool Addr) s (fun r t =>
      r = a + BitVec.ofNat 64 len ∧ Painted s a len d t) := by
  have low := a.isLt
  refine endsBind (paintsToAligned maps inside there) ?_
  intro _ t ⟨k,short,ends,first,slots,stop⟩
  subst ends
  obtain ⟨room,same⟩ := onward inside short
  refine endsBind (paintsLongs first.maps room (fun more => ?_) stop) ?_
  · rw [slots,same more,there (by omega)]
  intro _ u ⟨l,less,ends,second,kept⟩
  subst ends
  have place : a + BitVec.ofNat 64 k + BitVec.ofNat 64 l = a + BitVec.ofNat 64 (k + l) := by
    rw [BitVec.ofNat_add,BitVec.add_assoc]
  have upto := paintedMore first second (by omega) (by omega)
  rw [place,show len - k - l = len - (k + l) by omega]
  obtain ⟨room,same⟩ := onward (k := k + l) inside (by omega)
  refine endsMono (paintsBytes upto.maps room fun more => ?_) ?_
  · rw [kept,slots,same more,there (by omega)]
  intro r w ⟨ends,last,_⟩
  have whole : k + l + (len - (k + l)) = len := by omega
  have all := paintedMore upto last (by omega) (by omega)
  rw [whole] at all
  refine ⟨?_,all⟩
  rw [ends,BitVec.add_assoc,← BitVec.ofNat_add,whole]

end

theorem undistinguishes (maps : Maps s) {sm : SmPtr} (there : s.at_ (slotOf a) = some sm) :
    Ends (undistinguish (slotOf a) (.distinguished d)) s (fun quick t => Maps t ∧ Alike s t ∧
      if quick then t.at_ (slotOf a) = some (.distinguished d)
      else ∃ n, t.at_ (slotOf a) = some (.allocated n)) := by
  unfold undistinguish
  refine endsBind (derefs maps there) ?_
  rintro sm s ⟨rfl,rfl⟩
  cases sm with
  | allocated n => exact endsPure ⟨maps,alikeRefl _,n,there⟩
  | distinguished other =>
    refine endsIte (fun _ => endsIte (fun same => endsPure ?_) fun _ => ?_) fun plain => absurd rfl plain
    · rw [same] at there
      exact ⟨maps,alikeRefl _,there⟩
    · obtain ⟨slot,kept,alike⟩ := copies maps there
      exact ⟨_,_,rfl,kept,alike,_,slot⟩

theorem distinguishedBits (maps : Maps s) (there : s.at_ (slotOf a) = some (.distinguished d)) :
    va2 s a = d.vaBits2 := by
  have map : chunk s a (smOff a) = d.vaBits8 := by
    rw [chunk,secmap,there,Option.getD_some]
    exact maps.distinguished d _
  rw [va2,map,laneFull]

theorem paintedQuick (maps : Maps s) (there : s.at_ (slotOf a) = some (.distinguished d)) {len : Nat}
    (inside : a.toNat % 65536 + len ≤ 65536) : Painted s a len d s := by
  refine ⟨maps,?_,rfl,rfl,rfl⟩
  funext b
  rw [overwrite]
  by_cases within : Within a len b
  · have low := a.isLt
    rw [if_pos within]
    rw [withinLinear (by omega)] at within
    have slot : slotOf b = slotOf a := slotSame.mpr (by omega)
    exact distinguishedBits maps (by rw [slot,there])
  · rw [if_neg within]

theorem paintedAfter {t u : ShadowMem} {n : Nat} (maps : Maps t) (alike : Alike s t) (painted : Painted t a n d u) :
    Painted s a n d u := by
  have both := showsTrans (alikeShows maps alike) painted
  rwa [alikeVa2 alike] at both

theorem paintsFirst (maps : Maps s) {len : Nat} (inside : a.toNat % 65536 + len ≤ 65536)
    (aNext : Addr) : Ends (part1 a aNext len d.vaBits2 (vaBits16 d) (.distinguished d)) s
      (fun r t => (r = a + BitVec.ofNat 64 len ∨ r = aNext) ∧ Painted s a len d t) := by
  unfold part1
  refine endsBind (slotFound maps) ?_
  rintro _ t ⟨rfl,kept,alike,there,_⟩
  refine endsBind (undistinguishes (d := d) kept there) ?_
  intro quick u ⟨mapsU,more,slot⟩
  have both := alikeTrans alike more
  cases quick with
  | true =>
    refine endsBind (derefs mapsU slot) ?_
    rintro _ w ⟨rfl,rfl⟩
    -- nothing is left for the loops
    exact endsPure ⟨.inr rfl,paintedAfter mapsU both (paintedQuick mapsU slot inside)⟩
  | false =>
    obtain ⟨n,slot⟩ := slot
    refine endsBind (derefs mapsU slot) ?_
    rintro _ w ⟨rfl,rfl⟩
    refine endsMono (paintsPart mapsU inside fun _ => slot) ?_
    intro r v ⟨ends,painted⟩
    exact ⟨.inl ends,paintedAfter mapsU both painted⟩

theorem startNat : isStartOfSm a ↔ a.toNat % 65536 = 0 := by
  rw [isStartOfSm,startOfThisSm,← BitVec.toNat_inj,baseNat]
  omega

theorem exchanged (maps : Maps s) {sm : SmPtr} (there : s.at_ (slotOf a) = some sm) (start : isStartOfSm a)
    {mapped : Nat → Bool} (others : ∀ n, sm ≠ .allocated n → mapped n = s.mapped n) :
    Painted s a smSize d ({ s with mapped := mapped }.set (slotOf a) (.distinguished d)) := by
  have cells := setCells (u := { s with mapped := mapped }) maps.cells (slotOf a) (.distinguished d)
  have slots (q : Slot) : ({ s with mapped := mapped }.set (slotOf a) (.distinguished d)).at_ q =
      if q = slotOf a then some (.distinguished d) else s.at_ q := by
    rw [setSlots]
    cases q <;> rfl
  obtain ⟨dist,secMaps,issued,given,table,limit,growth,_⟩ :=
    setFields { s with mapped := mapped } (slotOf a) (.distinguished d)
  generalize { s with mapped := mapped }.set (slotOf a) (.distinguished d) = t
    at cells slots dist secMaps issued given table limit growth
  have older {q : Slot} {n : Nat} (found : t.at_ q = some (.allocated n)) :
      q ≠ slotOf a ∧ s.at_ q = some (.allocated n) := by
    rw [slots] at found
    by_cases here : q = slotOf a
    · rw [if_pos here] at found
      cases found
    · rw [if_neg here] at found
      exact ⟨here,found⟩
  have kept : Maps t := by
    refine ⟨?_,fun q n found => ?_,fun p q n first second => ?_,cells⟩
    · rw [dist]
      exact maps.distinguished
    · obtain ⟨apart,found⟩ := older found
      obtain ⟨below,live⟩ := maps.issued q n found
      -- the map that was given back was in this slot only
      have other : sm ≠ .allocated n := by
        rintro rfl
        exact apart (maps.alone q (slotOf a) n found there)
      rw [issued,given]
      exact ⟨below,(others n other).trans live⟩
    · exact maps.alone p q n (older first).2 (older second).2
  refine ⟨kept,?_,table,limit,growth⟩
  funext b
  rw [overwrite]
  have block : Within a smSize b ↔ slotOf b = slotOf a := by
    rw [slotSame]
    exact withinBlock (startNat.mp start) (by decide)
  by_cases here : slotOf b = slotOf a
  · rw [if_pos (block.mpr here)]
    exact distinguishedBits kept (by rw [slots,if_pos here])
  · have map : secmap t b = secmap s b := by rw [secmap,slots,if_neg here,← secmap]
    rw [if_neg (mt block.mp here),va2,va2,chunk,chunk,map]
    cases secmap s b with
    | distinguished other =>
      show extractVabits2FromVabits8 b (t.smDistinguished other _) = _
      rw [dist]
      rfl
    | allocated n =>
      show extractVabits2FromVabits8 b (t.secMaps n _) = _
      rw [secMaps]
      rfl

theorem paintsMaps (maps : Maps s) {len : Nat} (start : isStartOfSm a) (fits : len ≤ 2 ^ 64) :
    Ends (loop64K (.distinguished d) a len) s (fun r t => ∃ k ≤ len,
      r = (a + BitVec.ofNat 64 k,len - k) ∧ len - k < smSize ∧ isStartOfSm (a + BitVec.ofNat 64 k) ∧
      Painted s a k d t) := by
  induction len using Nat.strong_induction_on generalizing s a with
  | _ len ih =>
    have size : smSize = 65536 := rfl
    unfold loop64K
    refine endsIte (fun short => endsPure ⟨0,Nat.zero_le _,?_,short,?_,paintedNone maps⟩) fun long => ?_
    · rw [show a + BitVec.ofNat 64 0 = a from BitVec.add_zero a]
      rfl
    · rwa [show a + BitVec.ofNat 64 0 = a from BitVec.add_zero a]
    refine endsAssertBind start ?_
    refine endsBind (slotFound maps) ?_
    rintro _ t ⟨rfl,kept,alike,there,_⟩
    refine endsBind (derefs kept there) ?_
    rintro _ w ⟨rfl,rfl⟩
    -- with or without a map that is given back
    have rest {u : ShadowMem} (first : Painted w a smSize d u) :
        Ends (loop64K (.distinguished d) (a + BitVec.ofNat 64 smSize) (len - smSize)) u (fun r t => ∃ k ≤ len,
          r = (a + BitVec.ofNat 64 k,len - k) ∧ len - k < smSize ∧ isStartOfSm (a + BitVec.ofNat 64 k) ∧
          Painted s a k d t) := by
      have next : isStartOfSm (a + BitVec.ofNat 64 smSize) := by
        rw [startNat] at start ⊢
        rw [BitVec.toNat_add,BitVec.toNat_ofNat]
        omega
      refine endsMono (ih (len - smSize) (by omega) first.maps next (by omega)) ?_
      intro r v ⟨k,short,ends,few,stop,more⟩
      have place : a + BitVec.ofNat 64 smSize + BitVec.ofNat 64 k = a + BitVec.ofNat 64 (smSize + k) := by
        rw [BitVec.ofNat_add,BitVec.add_assoc]
      rw [place] at ends stop
      have both := paintedMore first more (by omega) (by omega)
      refine ⟨smSize + k,by omega,?_,by omega,stop,paintedAfter kept alike both⟩
      rw [ends,show len - smSize - k = len - (smSize + k) by omega]
    cases map : secmap s a with
    | distinguished other =>
      simp only [SmPtr.isDistinguished,Bool.true_eq_false,if_false]
      exact endsModifyBind (rest (exchanged kept there start fun _ _ => rfl))
    | allocated n =>
      simp only [SmPtr.isDistinguished,if_true,munmap]
      refine endsModifyBind (endsModifyBind (rest (exchanged kept there start fun m apart => ?_)))
      refine Function.update_of_ne ?_ ..
      rintro rfl
      exact apart map

theorem paintsRest (maps : Maps s) {len : Nat} (start : isStartOfSm a) (short : len < smSize) :
    Ends (part3 a len d.vaBits2 (vaBits16 d) (.distinguished d)) s (fun _ t => Painted s a len d t) := by
  have size : smSize = 65536 := rfl
  have begin_ := startNat.mp start
  have inside : a.toNat % 65536 + len ≤ 65536 := by omega
  unfold part3
  refine endsAssertBind ⟨start,short⟩ ?_
  refine endsBind (slotFound maps) ?_
  rintro _ t ⟨rfl,kept,alike,there,_⟩
  refine endsBind (undistinguishes (d := d) kept there) ?_
  intro quick u ⟨mapsU,more,slot⟩
  have both := alikeTrans alike more
  cases quick with
  | true => exact endsPure (paintedAfter mapsU both (paintedQuick mapsU slot inside))
  | false =>
    obtain ⟨n,slot⟩ := slot
    refine endsBind (derefs mapsU slot) ?_
    rintro _ w ⟨rfl,rfl⟩
    have aligned : isAligned 8 a := by
      unfold isAligned
      omega
    refine endsBind (paintsLongs mapsU inside (fun _ => slot) (.inr aligned)) ?_
    rintro _ v ⟨k,less,rfl,first,slots⟩
    obtain ⟨room,same⟩ := onward inside less
    refine endsBind (paintsBytes first.maps room fun more => ?_) ?_
    · rw [slots,same more,slot]
    intro r v' ⟨_,last,_⟩
    have low := a.isLt
    have all := paintedMore first last (by omega) (by omega)
    rw [Nat.add_sub_cancel' less] at all
    exact endsPure (paintedAfter mapsU both all)

theorem paintsSecond (maps : Maps s) {len : Nat} (start : isStartOfSm a) (fits : len < 2 ^ 64) :
    Ends (part2 a len d.vaBits2 (vaBits16 d) (.distinguished d)) s (fun _ t => Painted s a len d t) := by
  unfold part2
  refine endsBind (paintsMaps maps start (by omega)) ?_
  rintro _ t ⟨k,less,rfl,short,stop,first⟩
  refine endsIte (fun none_ => endsPure ?_) fun _ => ?_
  · rwa [show len = k by omega]
  · refine endsMono (paintsRest first.maps stop short) ?_
    intro _ u last
    have all := paintedMore first last (by omega) (by omega)
    rwa [Nat.add_sub_cancel' less] at all

theorem kindConstants (d : Dsm) : ((vaBits16 d &&& 3).setWidth 8 : UChar) = d.vaBits2 ∧
    (vaBits16NoAccess = vaBits16 d ∨ vaBits16Tainted = vaBits16 d ∨ vaBits16Untainted = vaBits16 d) ∧
    vaBits2PartUntainted ≠ ((vaBits16 d &&& 3).setWidth 8 : UChar) ∧ d.vaBits2 < 4 := by
  cases d <;> decide

theorem paints (maps : Maps s) (a : Addr) (lenT : SizeT) :
    Ends (setAddressRangePerms a lenT (vaBits16 d) d) s (fun _ t => Painted s a lenT.toNat d t) := by
  obtain ⟨bits,kind,plain,_⟩ := kindConstants d
  have low := a.isLt
  have long := lenT.isLt
  have next : startOfThisSm a + BitVec.ofNat 64 smSize - a = BitVec.ofNat 64 (65536 - a.toNat % 65536) := by
    rw [← BitVec.toNat_inj,subNat,startOfThisSm,BitVec.toNat_add,baseNat,BitVec.toNat_ofNat,BitVec.toNat_ofNat,
      show smSize = 65536 from rfl]
    split_ifs <;> omega
  unfold setAddressRangePerms
  simp only [bits,next]
  refine endsAssertBind kind (endsAssertBind plain ?_)
  have toNext : (BitVec.ofNat 64 (65536 - a.toNat % 65536)).toNat = 65536 - a.toNat % 65536 := by
    rw [BitVec.toNat_ofNat]
    omega
  refine endsIte (fun none_ => endsPure ?_) fun _ => endsIte (fun short => ?_) fun far => endsIte (fun start => ?_) fun _ => ?_
  · rw [none_]
    exact paintedNone maps
  · rw [BitVec.le_def,toNext] at short
    exact endsBind (paintsFirst maps (by omega) _) fun _ _ ⟨_,painted⟩ => endsPure painted
  · exact paintsSecond maps start long
  · rw [BitVec.le_def,toNext] at far
    rw [toNext]
    have left : (lenT - BitVec.ofNat 64 (65536 - a.toNat % 65536)).toNat =
        lenT.toNat - (65536 - a.toNat % 65536) := by
      rw [subNat,toNext,if_pos (by omega)]
    have whole : 65536 - a.toNat % 65536 + (lenT.toNat - (65536 - a.toNat % 65536)) = lenT.toNat := by omega
    have place : startOfThisSm a + BitVec.ofNat 64 smSize = a + BitVec.ofNat 64 (65536 - a.toNat % 65536) := by
      rw [← next,BitVec.add_comm a,BitVec.sub_add_cancel]
    have start : isStartOfSm (a + BitVec.ofNat 64 (65536 - a.toNat % 65536)) := by
      rw [startNat,BitVec.toNat_add,BitVec.toNat_ofNat]
      omega
    refine endsBind (paintsFirst maps (by omega) _) ?_
    intro r t ⟨ends,first⟩
    have here : r = a + BitVec.ofNat 64 (65536 - a.toNat % 65536) := ends.elim id fun other => other.trans place
    rw [here]
    refine endsIte (fun none_ => ?_) fun _ => ?_
    · rw [none_] at left
      have none_ : lenT.toNat - (65536 - a.toNat % 65536) = 0 := left.symm
      omega
    · rw [left]
      refine endsMono (paintsSecond first.maps start (by omega)) ?_
      intro _ u last
      have all := paintedMore first last (by omega) (by omega)
      rwa [whole] at all

theorem paintsEach (maps : Maps s) {lenT k : Nat} (left : k ≤ lenT) (fits : lenT < 2 ^ 64) :
    Ends (setBytePerms a lenT d.vaBits2 k) s
      (fun _ t => Painted s (a + BitVec.ofNat 64 (lenT - k)) k d t) := by
  induction k generalizing s with
  | zero => exact endsPure (paintedNone maps)
  | succ k ih =>
    unfold setBytePerms
    refine endsBind (setsVa2 maps _ (kindConstants d).2.2.2) ?_
    intro _ t first
    rw [← overwriteOne (g := fun _ => d.vaBits2)] at first
    refine endsMono (ih first.maps (by omega)) ?_
    intro _ u rest
    have place : a + BitVec.ofNat 64 (lenT - (k + 1)) + BitVec.ofNat 64 1 = a + BitVec.ofNat 64 (lenT - k) := by
      rw [BitVec.add_assoc,← BitVec.ofNat_add,show lenT - (k + 1) + 1 = lenT - k by omega]
    rw [← place] at rest
    have both := paintedMore first rest (by omega) (by decide)
    rwa [Nat.add_comm 1 k] at both

theorem paintsDebug (maps : Maps s) (a : Addr) (lenT : SizeT) :
    Ends (setAddressRangePermsDebug a lenT (vaBits16 d)) s (fun _ t => Painted s a lenT.toNat d t) := by
  obtain ⟨bits,kind,plain,_⟩ := kindConstants d
  unfold setAddressRangePermsDebug
  simp only [bits]
  refine endsAssertBind kind (endsAssertBind plain (endsIte (fun none_ => endsPure ?_) fun _ => ?_))
  · rw [none_]
    exact paintedNone maps
  · have each := paintsEach (a := a) (d := d) maps (le_refl lenT.toNat) lenT.isLt
    rwa [Nat.sub_self,show a + BitVec.ofNat 64 0 = a from BitVec.add_zero a] at each

theorem paintedTaints {f : Addr → UChar} {t : ShadowMem} {n : Nat} (taints : Taints f s) (painted : Painted s a n d t) :
    Taints (overwrite f a n (fun _ => taintOf d)) t := by
  have small : d.vaBits2 < 3 := by cases d <;> decide
  have kind : byteOf d.vaBits2 none = taintOf d := by cases d <;> rfl
  have after := plainTaints taints painted.maps painted.table small painted.bits
  rwa [kind] at after

theorem paintsTaints {f : Addr → UChar} (taints : Taints f s) (a : Addr) (lenT : SizeT) :
    Ends (setAddressRangePerms a lenT (vaBits16 d) d) s
      (fun _ t => Taints (overwrite f a lenT.toNat (fun _ => taintOf d)) t) :=
  endsMono (paints taints.sound.maps a lenT) fun _ _ painted => paintedTaints taints painted

end

end Autonomizer.Ranges
