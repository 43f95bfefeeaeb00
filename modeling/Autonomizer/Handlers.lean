import Mathlib
import Autonomizer.Words

/-! Every handler of a load answers the taint of its bytes, and every handler of a store
writes that of its bytes, by whichever of the ways through it. -/
namespace Autonomizer.Handlers
open LoadStore SecMaps ShadowMemory Spans Total VBits Words

section
variable {s : ShadowMem} {f : Addr → UChar} {a : Addr} {bigendian : Bool} {v : ULong}

theorem lowAligned {k : Nat} (power : k < 6) (fast : ¬ unalignedOrHigh a (8 * 2 ^ k)) :
    a ≤ maxPrimaryAddress ∧ isAligned (2 ^ k) a := by
  have masks : ∀ k < 6, mask ((8 * 2 ^ k) >>> 3) &&& BitVec.ofNat 64 (2 ^ k - 1) = BitVec.ofNat 64 (2 ^ k - 1) ∧
      BitVec.ofNat 64 (2 ^ k - 1) = BitVec.setWidth 64 (BitVec.allOnes k) ∧
      mask ((8 * 2 ^ k) >>> 3) &&& ~~~(0x7FFFFFFFF : Addr) = ~~~(0x7FFFFFFFF : Addr) := by decide
  obtain ⟨low,ones,high⟩ := masks k power
  have none_ : a &&& mask ((8 * 2 ^ k) >>> 3) = 0 := not_not.mp fast
  have part {m : Addr} (inside : mask ((8 * 2 ^ k) >>> 3) &&& m = m) : a &&& m = 0 := by
    rw [← inside,← BitVec.and_assoc,none_]
    exact BitVec.zero_and
  have bottom := congrArg BitVec.toNat (part low)
  have top := congrArg BitVec.toNat (part high)
  rw [masked ones (by omega)] at bottom
  rw [maskedDown (show (0x7FFFFFFFF : Addr) = BitVec.setWidth 64 (BitVec.allOnes 35) from rfl)] at top
  refine ⟨?_,bottom⟩
  rw [BitVec.le_def,show maxPrimaryAddress.toNat = 34359738367 from rfl]
  rw [show (0 : Addr).toNat = 0 from rfl] at top
  omega

theorem readsTaints (taints : Taints f s) (a : Addr) : Ends (getSecmapForReading a) s (fun sm t =>
    sm = secmap t a ∧ t.at_ (slotOf a) = some sm ∧ Taints f t) := by
  refine endsMono (reads (a := a) taints.sound.maps) ?_
  exact fun sm t ⟨own,there,maps,alike⟩ => ⟨own,there,showsTaints taints (alikeShows maps alike)⟩

theorem readsLow (taints : Taints f s) (low : a ≤ maxPrimaryAddress) :
    Ends (getSecmapForReadingLow a) s (fun sm t =>
      sm = secmap t a ∧ t.at_ (slotOf a) = some sm ∧ Taints f t) := by
  have same : getSecmapForReading a = getSecmapForReadingLow a := if_pos low
  rw [← same]
  exact readsTaints taints a

theorem constantBytes : (∀ i < 8, byteAt vBits64Untainted i = 0) ∧ (∀ i < 8, byteAt vBits64Tainted i = 0xFF) ∧
    (∀ i < 4, byteAt (0xFFFFFFFF00000000 ||| vBits32Untainted) i = 0) ∧
    (∀ i < 4, byteAt (0xFFFFFFFF00000000 ||| vBits32Tainted) i = 0xFF) ∧
    (∀ i < 2, byteAt vBits16Untainted i = 0) ∧ (∀ i < 2, byteAt vBits16Tainted i = 0xFF) ∧
    (∀ i < 1, byteAt (vBits8Untainted.setWidth 64) i = 0) ∧
    (∀ i < 1, byteAt (vBits8Tainted.setWidth 64) i = 0xFF) := by decide

def Loads (p : Tool ULong) (f : Addr → UChar) (a : Addr) (szB : Nat) (bigendian : Bool) : Prop :=
  ∀ s, Taints f s → Ends p s (fun r t => Taints f t ∧ Loaded f a szB bigendian r)

def Stores (p : Tool Unit) (f : Addr → UChar) (a : Addr) (szB : Nat) (bigendian : Bool) (v : ULong) : Prop :=
  ∀ s, Taints f s → Ends p s (fun _ t => Taints (stored f a szB bigendian v) t)

theorem longLoaded (taints : Taints f s) (aligned : isAligned 8 a) {d : Dsm}
    (full : s.vabits16 (secmap s a) (smOff16 a) = vaBits16 d) {r : ULong}
    (bytes : ∀ i < 8, byteAt r i = taintOf d) : Loaded f a 8 bigendian r :=
  wholeLoaded taints le_rfl aligned (by decide) (fun _ here => longFull full here) bytes

theorem wordLoaded (taints : Taints f s) {n : Nat} (short : n ∣ 4) (aligned : isAligned n a) {d : Dsm}
    (full : s.vabits8 (secmap s a) (smOff a) = d.vaBits8) {r : ULong}
    (bytes : ∀ i < n, byteAt r i = taintOf d) : Loaded f a n bigendian r := by
  refine wholeLoaded taints ((Nat.le_of_dvd (by decide) short).trans (by decide)) aligned
    (short.trans (by decide)) (fun b here => wordFull full ?_) bytes
  obtain ⟨k,four⟩ := short
  rw [four,← Nat.div_div_eq_div_mul,← Nat.div_div_eq_div_mul,here]

theorem loadsSemiFast (bigendian : Bool) (taints : Taints f s) (nBits : Nat) : Ends (loadVnSemiFast a nBits) s
    (fun r t => Taints f t ∧ ∀ w, r = some w → Loaded f a (nBits / 8) bigendian w) := by
  obtain ⟨long0,long1,word0,word1,_⟩ := constantBytes
  have nothing {t : ShadowMem} (after : Taints f t) : Ends (pure none : Tool (Option ULong)) t
      (fun r t => Taints f t ∧ ∀ w, r = some w → Loaded f a (nBits / 8) bigendian w) :=
    endsPure ⟨after,nofun⟩
  unfold loadVnSemiFast
  refine endsIte ?_ fun _ => endsIte ?_ fun _ => nothing taints
  · rintro ⟨rfl,aligned⟩
    refine endsBind (readsTaints taints a) ?_
    rintro _ t ⟨rfl,_,after⟩
    refine endsGetBind ?_
    refine endsIte (fun full => endsPure ⟨after,?_⟩) fun _ =>
      endsIte (fun full => endsPure ⟨after,?_⟩) fun _ => nothing after
    · rintro _ ⟨⟩
      exact longLoaded (d := .untainted) after aligned full long0
    · rintro _ ⟨⟩
      exact longLoaded (d := .tainted) after aligned full long1
  · rintro ⟨rfl,aligned⟩
    refine endsBind (readsTaints taints a) ?_
    rintro _ t ⟨rfl,_,after⟩
    refine endsGetBind ?_
    refine endsIte (fun full => endsPure ⟨after,?_⟩) fun _ =>
      endsIte (fun full => endsPure ⟨after,?_⟩) fun _ => nothing after
    · rintro _ ⟨⟩
      exact wordLoaded (d := .untainted) after (by decide) aligned full word0
    · rintro _ ⟨⟩
      exact wordLoaded (d := .tainted) after (by decide) aligned full word1

theorem loadsSlow {nBits : Nat} (size : nBits = 64 ∨ nBits = 32 ∨ nBits = 16 ∨ nBits = 8) :
    Loads (loadVnSlow a nBits bigendian) f a (nBits / 8) bigendian := by
  intro s taints
  unfold loadVnSlow
  refine endsBind (loadsSemiFast bigendian taints nBits) ?_
  rintro r t ⟨after,quick⟩
  cases r with
  | some w => exact endsPure ⟨after,quick w rfl⟩
  | none =>
    refine endsAssertBind size ?_
    exact loadsBytes after (by omega)

theorem loads64 : Loads (loadV64 a bigendian) f a 8 bigendian := by
  intro s taints
  obtain ⟨long0,long1,_⟩ := constantBytes
  have slow {t : ShadowMem} : Taints f t → Ends (loadVnSlow a 64 bigendian) t
      (fun r t => Taints f t ∧ Loaded f a 8 bigendian r) := loadsSlow (.inl rfl) t
  unfold loadV64
  refine endsIte (fun _ => slow taints) fun fast => ?_
  obtain ⟨low,aligned⟩ := lowAligned (k := 3) (by decide) fast
  refine endsBind (readsLow taints low) ?_
  rintro _ t ⟨rfl,_,after⟩
  refine endsGetBind ?_
  exact endsIte (fun full => endsPure ⟨after,longLoaded (d := .untainted) after aligned full long0⟩) fun _ =>
    endsIte (fun full => endsPure ⟨after,longLoaded (d := .tainted) after aligned full long1⟩) fun _ => slow after

theorem loads32 : Loads (loadV32 a bigendian) f a 4 bigendian := by
  intro s taints
  obtain ⟨_,_,word0,word1,_⟩ := constantBytes
  have slow {t : ShadowMem} : Taints f t → Ends (loadVnSlow a 32 bigendian) t
      (fun r t => Taints f t ∧ Loaded f a 4 bigendian r) := loadsSlow (.inr (.inl rfl)) t
  unfold loadV32
  refine endsIte (fun _ => slow taints) fun fast => ?_
  obtain ⟨low,aligned⟩ := lowAligned (k := 2) (by decide) fast
  refine endsBind (readsLow taints low) ?_
  rintro _ t ⟨rfl,_,after⟩
  refine endsGetBind ?_
  exact endsIte (fun full => endsPure ⟨after,wordLoaded (d := .untainted) after (by decide) aligned full word0⟩) fun _ =>
    endsIte (fun full => endsPure ⟨after,wordLoaded (d := .tainted) after (by decide) aligned full word1⟩) fun _ => slow after

theorem loads16 : Loads (loadV16 a bigendian) f a 2 bigendian := by
  intro s taints
  obtain ⟨_,_,_,_,pair0,pair1,_⟩ := constantBytes
  have slow {t : ShadowMem} : Taints f t → Ends (loadVnSlow a 16 bigendian) t
      (fun r t => Taints f t ∧ Loaded f a 2 bigendian r) := loadsSlow (.inr (.inr (.inl rfl))) t
  unfold loadV16
  refine endsIte (fun _ => slow taints) fun fast => ?_
  obtain ⟨low,aligned⟩ := lowAligned (k := 1) (by decide) fast
  refine endsBind (readsLow taints low) ?_
  rintro _ t ⟨rfl,_,after⟩
  refine endsGetBind ?_
  refine endsIte (fun full => endsPure ⟨after,wordLoaded (d := .untainted) after (by decide) aligned full pair0⟩) fun _ =>
    endsIte (fun full => endsPure ⟨after,wordLoaded (d := .tainted) after (by decide) aligned full pair1⟩) fun _ => ?_
  refine endsAssertBind aligned ?_
  have two {d : Dsm} {v4 : UChar} (constant : v4 = vaBits4Tainted ∧ d = .tainted ∨ v4 = vaBits4Untainted ∧ d = .untainted)
      (full : extractVabits4FromVabits8 a (t.vabits8 (secmap t a) (smOff a)) = v4) {r : ULong}
      (bytes : ∀ i < 2, byteAt r i = taintOf d) : Loaded f a 2 bigendian r :=
    wholeLoaded after (by decide) aligned (by decide) (fun _ here => pairFull constant full here) bytes
  exact endsIte (fun full => endsPure ⟨after,two (.inr ⟨rfl,rfl⟩) full pair0⟩) fun _ =>
    endsIte (fun full => endsPure ⟨after,two (.inl ⟨rfl,rfl⟩) full pair1⟩) fun _ => slow after

theorem loads8 : Loads (loadV8 a) f a 1 false := by
  intro s taints
  obtain ⟨_,_,_,_,_,_,byte0,byte1⟩ := constantBytes
  have slow {t : ShadowMem} : Taints f t → Ends (loadVnSlow a 8 false) t
      (fun r t => Taints f t ∧ Loaded f a 1 false r) := loadsSlow (.inr (.inr (.inr rfl))) t
  unfold loadV8
  refine endsIte (fun _ => slow taints) fun fast => ?_
  obtain ⟨low,aligned⟩ := lowAligned (k := 0) (by decide) fast
  refine endsBind (readsLow taints low) ?_
  rintro _ t ⟨rfl,_,after⟩
  refine endsGetBind ?_
  have one {d : Dsm} (full : va2 t a = d.vaBits2) {r : ULong} (bytes : ∀ i < 1, byteAt r i = taintOf d) :
      Loaded f a 1 false r := by
    refine wholeLoaded after (by decide) aligned (by decide) (fun b here => ?_) bytes
    have same : b = a := BitVec.toNat_inj.mp (by simpa using here)
    rwa [same]
  exact endsIte (fun full => endsPure ⟨after,wordLoaded (d := .untainted) after (by decide) aligned full byte0⟩) fun _ =>
    endsIte (fun full => endsPure ⟨after,wordLoaded (d := .tainted) after (by decide) aligned full byte1⟩) fun _ =>
    endsIte (fun full => endsPure ⟨after,one (d := .untainted) full byte0⟩) fun _ =>
    endsIte (fun full => endsPure ⟨after,one (d := .tainted) full byte1⟩) fun _ => slow after

theorem lowBytes (v : ULong) {i : Nat} (inside : i < 4) : byteAt (v &&& 0xFFFFFFFF) i = byteAt v i := by
  have ones : ∀ k < 32, (0xFFFFFFFF : ULong).getLsbD k = true := by decide
  ext j here
  rw [byteAt,byteAt,BitVec.getElem_setWidth,BitVec.getElem_setWidth,BitVec.getLsbD_ushiftRight,
    BitVec.getLsbD_ushiftRight,BitVec.getLsbD_and,ones _ (by omega),Bool.and_true]

theorem lowConstants : (∀ i < 4, byteAt vBits32Untainted i = 0) ∧ (∀ i < 4, byteAt vBits32Tainted i = 0xFF) := by
  decide

section
variable {sm : SmPtr}

theorem allocatedHere (plain : sm.isDistinguished = false) : ∃ n, sm = .allocated n := by
  cases sm with
  | distinguished d => cases plain
  | allocated n => exact ⟨n,rfl⟩

theorem longStored (taints : Taints f s) (there : s.at_ (slotOf a) = some sm) (plain : sm.isDistinguished = false)
    (aligned : isAligned 8 a) {d : Dsm} (bytes : ∀ i < 8, byteAt v i = taintOf d) :
    Taints (stored f a 8 bigendian v) (s.put16 sm (smOff16 a) (vaBits16 d)) := by
  obtain ⟨n,rfl⟩ := allocatedHere plain
  obtain ⟨bits,maps⟩ := putLong (d := d) taints.sound.maps there aligned
  exact wholeStored taints maps rfl bits bytes

theorem wordStored (taints : Taints f s) (there : s.at_ (slotOf a) = some sm) (plain : sm.isDistinguished = false)
    (aligned : isAligned 4 a) {d : Dsm} (bytes : ∀ i < 4, byteAt v i = taintOf d) :
    Taints (stored f a 4 bigendian v) (s.put sm (smOff a) d.vaBits8) := by
  obtain ⟨n,rfl⟩ := allocatedHere plain
  exact wholeStored taints (putMaps taints.sound.maps) rfl (putWord taints.sound.maps there aligned) bytes

theorem pairStored (taints : Taints f s) (there : s.at_ (slotOf a) = some sm) (plain : sm.isDistinguished = false)
    (aligned : isAligned 2 a) {d : Dsm} {v4 : UChar}
    (constant : v4 = vaBits4Tainted ∧ d = .tainted ∨ v4 = vaBits4Untainted ∧ d = .untainted)
    (bytes : ∀ i < 2, byteAt v i = taintOf d) : Taints (stored f a 2 bigendian v)
      (s.put sm (smOff a) (insertVabits4IntoVabits8 a v4 (s.vabits8 sm (smOff a)))) := by
  obtain ⟨n,rfl⟩ := allocatedHere plain
  exact wholeStored taints (putMaps taints.sound.maps) rfl (putPair taints.sound.maps there aligned constant) bytes

theorem byteStored (taints : Taints f s) (there : s.at_ (slotOf a) = some sm) (plain : sm.isDistinguished = false)
    {d : Dsm} (bytes : ∀ i < 1, byteAt v i = taintOf d) : Taints (stored f a 1 bigendian v)
      (s.put sm (smOff a) (insertVabits2IntoVabits8 a d.vaBits2 (s.vabits8 sm (smOff a)))) := by
  obtain ⟨n,rfl⟩ := allocatedHere plain
  have small : d.vaBits2 < 4 := by cases d <;> decide
  refine wholeStored taints (putMaps taints.sound.maps) rfl ?_ bytes
  rw [putVa2 taints.sound.maps there small,overwriteOne]

end

theorem storesSemiFast (bigendian : Bool) (taints : Taints f s) (nBits : Nat) (v : ULong) : Ends (storeVnSemiFast a nBits v) s
    (fun done t => if done then Taints (stored f a (nBits / 8) bigendian v) t else Taints f t) := by
  obtain ⟨long0,long1,_⟩ := constantBytes
  obtain ⟨word0,word1⟩ := lowConstants
  have nothing {t : ShadowMem} (after : Taints f t) : Ends (pure false : Tool Bool) t
      (fun done t => if done then Taints (stored f a (nBits / 8) bigendian v) t else Taints f t) :=
    endsPure after
  unfold storeVnSemiFast
  refine endsIte ?_ fun _ => endsIte ?_ fun _ => nothing taints
  · rintro ⟨rfl,aligned⟩
    refine endsBind (readsTaints taints a) ?_
    rintro sm t ⟨_,there,after⟩
    refine endsGetBind ?_
    refine endsIte (fun ⟨plain,_⟩ => ?_) fun _ => nothing after
    refine endsIte (fun kind => ?_) fun _ => endsIte (fun kind => ?_) fun _ => nothing after
    · subst kind
      exact endsBind (endsModify (longStored (d := .untainted) after there plain aligned long0))
        fun _ _ done => endsPure done
    · subst kind
      exact endsBind (endsModify (longStored (d := .tainted) after there plain aligned long1))
        fun _ _ done => endsPure done
  · rintro ⟨rfl,aligned⟩
    refine endsBind (readsTaints taints a) ?_
    rintro sm t ⟨_,there,after⟩
    refine endsGetBind ?_
    refine endsIte (fun ⟨plain,_⟩ => ?_) fun _ => nothing after
    refine endsIte (fun kind => ?_) fun _ => endsIte (fun kind => ?_) fun _ => nothing after
    · have bytes (i : Nat) (inside : i < 4) : byteAt v i = taintOf .untainted := by
        rw [← lowBytes v inside,← kind]
        exact word0 i inside
      exact endsBind (endsModify (wordStored after there plain aligned bytes)) fun _ _ done => endsPure done
    · have bytes (i : Nat) (inside : i < 4) : byteAt v i = taintOf .tainted := by
        rw [← lowBytes v inside,← kind]
        exact word1 i inside
      exact endsBind (endsModify (wordStored after there plain aligned bytes)) fun _ _ done => endsPure done

theorem storesSlow {nBits : Nat} (size : nBits = 64 ∨ nBits = 32 ∨ nBits = 16 ∨ nBits = 8) :
    Stores (storeVnSlow a nBits v bigendian) f a (nBits / 8) bigendian v := by
  intro s taints
  unfold storeVnSlow
  refine endsBind (storesSemiFast bigendian taints nBits v) ?_
  rintro done t after
  cases done with
  | true => exact endsPure after
  | false =>
    refine endsAssertBind size ?_
    exact storesBytes after (by omega)

theorem stores64 : Stores (storeV64 a v bigendian) f a 8 bigendian v := by
  intro s taints
  obtain ⟨long0,long1,_⟩ := constantBytes
  have slow {t : ShadowMem} : Taints f t → Ends (storeVnSlow a 64 v bigendian) t
      (fun _ t => Taints (stored f a 8 bigendian v) t) := storesSlow (.inl rfl) t
  unfold storeV64
  refine endsIte (fun _ => slow taints) fun fast => ?_
  obtain ⟨low,aligned⟩ := lowAligned (k := 3) (by decide) fast
  refine endsBind (readsLow taints low) ?_
  rintro sm t ⟨_,there,after⟩
  refine endsGetBind ?_
  refine endsIte (fun ⟨plain,_⟩ => ?_) fun _ => slow after
  refine endsIte (fun kind => ?_) fun _ => endsIte (fun kind => ?_) fun _ => slow after
  · subst kind
    exact endsModify (longStored (d := .untainted) after there plain aligned long0)
  · subst kind
    exact endsModify (longStored (d := .tainted) after there plain aligned long1)

theorem stores32 : Stores (storeV32 a v bigendian) f a 4 bigendian v := by
  intro s taints
  obtain ⟨word0,word1⟩ := lowConstants
  have slow {t : ShadowMem} : Taints f t → Ends (storeVnSlow a 32 v bigendian) t
      (fun _ t => Taints (stored f a 4 bigendian v) t) := storesSlow (.inr (.inl rfl)) t
  unfold storeV32
  refine endsIte (fun _ => slow taints) fun fast => ?_
  obtain ⟨low,aligned⟩ := lowAligned (k := 2) (by decide) fast
  refine endsBind (readsLow taints low) ?_
  rintro sm t ⟨own,there,after⟩
  refine endsGetBind ?_
  -- nothing is written where the bytes are so already
  have kept (d : Dsm) (full : t.vabits8 sm (smOff a) = d.vaBits8) (bytes : ∀ i < 4, byteAt v i = taintOf d) :
      Ends (pure () : Tool Unit) t (fun _ u => Taints (stored f a 4 bigendian v) u) := by
    rw [own] at full
    have same : stored f a 4 bigendian v = f :=
      wholeThere after aligned (by decide) (fun b here => wordFull full here) bytes
    exact endsPure (by rwa [same])
  refine endsIte (fun kind => ?_) fun _ => endsIte (fun kind => ?_) fun _ => slow after
  · subst kind
    exact endsIte (fun full => kept .untainted full word0) fun _ =>
      endsIte (fun ⟨plain,_⟩ => endsModify (wordStored (d := .untainted) after there plain aligned word0))
        fun _ => slow after
  · subst kind
    exact endsIte (fun full => kept .tainted full word1) fun _ =>
      endsIte (fun ⟨plain,_⟩ => endsModify (wordStored (d := .tainted) after there plain aligned word1))
        fun _ => slow after

theorem stores16 : Stores (storeV16 a v bigendian) f a 2 bigendian v := by
  intro s taints
  obtain ⟨_,_,_,_,pair0,pair1,_⟩ := constantBytes
  have slow {t : ShadowMem} : Taints f t → Ends (storeVnSlow a 16 v bigendian) t
      (fun _ t => Taints (stored f a 2 bigendian v) t) := storesSlow (.inr (.inr (.inl rfl))) t
  unfold storeV16
  refine endsIte (fun _ => slow taints) fun fast => ?_
  obtain ⟨low,aligned⟩ := lowAligned (k := 1) (by decide) fast
  refine endsBind (readsLow taints low) ?_
  rintro sm t ⟨_,there,after⟩
  refine endsGetBind ?_
  refine endsIte (fun ⟨plain,_⟩ => ?_) fun _ => slow after
  refine endsIte (fun kind => ?_) fun _ => endsIte (fun kind => ?_) fun _ => slow after
  · subst kind
    refine endsAssertBind aligned ?_
    exact endsModify (pairStored after there plain aligned (.inr ⟨rfl,rfl⟩) pair0)
  · subst kind
    refine endsAssertBind aligned ?_
    exact endsModify (pairStored after there plain aligned (.inl ⟨rfl,rfl⟩) pair1)

theorem stores8 : Stores (storeV8 a v) f a 1 false v := by
  intro s taints
  obtain ⟨_,_,_,_,_,_,byte0,byte1⟩ := constantBytes
  have slow {t : ShadowMem} : Taints f t → Ends (storeVnSlow a 8 v false) t
      (fun _ t => Taints (stored f a 1 false v) t) := storesSlow (.inr (.inr (.inr rfl))) t
  unfold storeV8
  refine endsIte (fun _ => slow taints) fun fast => ?_
  obtain ⟨low,aligned⟩ := lowAligned (k := 0) (by decide) fast
  refine endsBind (readsLow taints low) ?_
  rintro sm t ⟨_,there,after⟩
  refine endsGetBind ?_
  refine endsIte (fun ⟨plain,_⟩ => ?_) fun _ => slow after
  refine endsIte (fun kind => ?_) fun _ => endsIte (fun kind => ?_) fun _ => slow after
  · subst kind
    exact endsModify (byteStored (d := .untainted) after there plain byte0)
  · subst kind
    exact endsModify (byteStored (d := .tainted) after there plain byte1)

def VectorLoaded (f : Addr → UChar) (a : Addr) (szL : Nat) (bigendian : Bool) (res r : Nat → ULong) : Prop :=
  (∀ j < szL, Loaded f (a + 8 * BitVec.ofNat 64 j) 8 bigendian (r j)) ∧ ∀ j, szL ≤ j → r j = res j

theorem loadsLongs (taints : Taints f s) {szL j : Nat} (left : j ≤ szL) (res : Nat → ULong) :
    Ends (loadLongs a szL bigendian j res) s (fun r t => Taints f t ∧
      (∀ k < j, Loaded f (a + 8 * BitVec.ofNat 64 (byteOffsetW szL bigendian k)) 8 bigendian
        (r (byteOffsetW szL bigendian k))) ∧
      ∀ l, (∀ k < j, l ≠ byteOffsetW szL bigendian k) → r l = res l) := by
  induction j generalizing s res with
  | zero => exact endsPure ⟨taints,nofun,fun _ _ => rfl⟩
  | succ j ih =>
    unfold loadLongs
    refine endsBind (loadsBytes taints le_rfl) ?_
    rintro vbits64 t ⟨after,own⟩
    refine endsMono (ih after (by omega) _) ?_
    rintro r u ⟨last,words,rest⟩
    refine ⟨last,fun k below => ?_,fun l other => ?_⟩
    · by_cases here : k = j
      · subst here
        -- the words that come later are others
        have apart (i : Nat) (less : i < k) : byteOffsetW szL bigendian k ≠ byteOffsetW szL bigendian i := by
          rw [byteOffsetW,byteOffsetW]
          split <;> omega
        rw [rest _ apart,Function.update_self]
        exact own
      · exact words k (by omega)
    · rw [rest l fun k less => other k (by omega),Function.update_of_ne (other j (by omega))]

theorem loadsVectorSlow (taints : Taints f s) (res : Nat → ULong) {nBits : Nat} (size : nBits = 128 ∨ nBits = 256) :
    Ends (loadV128Or256Slow res a nBits bigendian) s
      (fun r t => Taints f t ∧ VectorLoaded f a (nBits / 8 / 8) bigendian res r) := by
  unfold loadV128Or256Slow
  have power : nBits / 8 &&& (nBits / 8 - 1) = 0 ∧ nBits / 8 / 8 > 0 := by
    rcases size with rfl | rfl <;> decide
  refine endsAssertBind power ?_
  refine endsMono (loadsLongs taints le_rfl _) ?_
  rintro r t ⟨after,words,rest⟩
  refine ⟨after,fun j inside => ?_,fun j behind => ?_⟩
  · have own := words _ (offsetBelow bigendian inside)
    rwa [offsetTwice inside] at own
  · rw [rest j fun k below => ?_,if_neg (by omega)]
    have := offsetBelow bigendian below
    omega

theorem loadsULongs (bigendian : Bool) (taints : Taints f s) {n k : Nat} (left : k ≤ n) (res : Nat → ULong)
    (room : ∀ j < n, a + 8 * BitVec.ofNat 64 j ≤ maxPrimaryAddress ∧ isAligned 8 (a + 8 * BitVec.ofNat 64 j)) :
    Ends (loadULongs a n k res) s (fun r t => Taints f t ∧ ∀ w, r = some w →
      (∀ j < n, n - k ≤ j → Loaded f (a + 8 * BitVec.ofNat 64 j) 8 bigendian (w j)) ∧
      ∀ j, j < n - k ∨ n ≤ j → w j = res j) := by
  induction k generalizing s res with
  | zero =>
    refine endsPure ⟨taints,?_⟩
    rintro _ ⟨⟩
    exact ⟨fun j inside behind => absurd inside (Nat.not_lt.mpr behind),fun _ _ => rfl⟩
  | succ k ih =>
    unfold loadULongs
    obtain ⟨low,aligned⟩ := room (n - (k + 1)) (by omega)
    refine endsBind (readsLow taints low) ?_
    rintro _ t ⟨rfl,_,after⟩
    refine endsGetBind ?_
    -- the word is there, and the rest goes on
    have next {v : ULong} (own : Loaded f (a + 8 * BitVec.ofNat 64 (n - (k + 1))) 8 bigendian v) :
        Ends (loadULongs a n k (Function.update res (n - (k + 1)) v)) t (fun r t => Taints f t ∧
          ∀ w, r = some w →
            (∀ j < n, n - (k + 1) ≤ j → Loaded f (a + 8 * BitVec.ofNat 64 j) 8 bigendian (w j)) ∧
            ∀ j, j < n - (k + 1) ∨ n ≤ j → w j = res j) := by
      refine endsMono (ih after (by omega) _) ?_
      rintro r u ⟨last,more⟩
      refine ⟨last,fun w some_ => ?_⟩
      obtain ⟨words,rest⟩ := more w some_
      refine ⟨fun j inside behind => ?_,fun j beside => ?_⟩
      · by_cases here : j = n - (k + 1)
        · subst here
          rw [rest _ (.inl (by omega)),Function.update_self]
          exact own
        · exact words j inside (by omega)
      · rw [rest j (by omega),Function.update_of_ne (by omega)]
    obtain ⟨long0,long1,_⟩ := constantBytes
    exact endsIte (fun full => next (longLoaded (d := .untainted) after aligned full long0)) fun _ =>
      endsIte (fun full => next (longLoaded (d := .tainted) after aligned full long1)) fun _ =>
      endsPure ⟨after,nofun⟩

theorem loadsVector (taints : Taints f s) (res : Nat → ULong) {nBits : Nat} (size : nBits = 128 ∨ nBits = 256) :
    Ends (loadV128Or256 res a nBits bigendian) s
      (fun r t => Taints f t ∧ VectorLoaded f a (nBits / 8 / 8) bigendian res r) := by
  unfold loadV128Or256
  refine endsIte (fun _ => loadsVectorSlow taints res size) fun fast => ?_
  have room : ∀ j < nBits / 8 / 8,
      a + 8 * BitVec.ofNat 64 j ≤ maxPrimaryAddress ∧ isAligned 8 (a + 8 * BitVec.ofNat 64 j) := by
    intro j inside
    have start : a ≤ maxPrimaryAddress ∧ a.toNat % (nBits / 8) = 0 := by
      rcases size with rfl | rfl
      · exact lowAligned (k := 4) (by decide) fast
      · exact lowAligned (k := 5) (by decide) fast
    obtain ⟨low,aligned⟩ := start
    rw [BitVec.le_def,show maxPrimaryAddress.toNat = 34359738367 from rfl] at low ⊢
    have place : (a + 8 * BitVec.ofNat 64 j).toNat = a.toNat + 8 * j := by
      rw [BitVec.toNat_add,BitVec.toNat_mul,BitVec.toNat_ofNat,show (8 : Addr).toNat = 8 from rfl]
      omega
    rw [isAligned,place]
    rcases size with rfl | rfl <;> omega
  refine endsBind (loadsULongs bigendian taints le_rfl res room) ?_
  rintro r t ⟨after,words⟩
  cases r with
  | none => exact loadsVectorSlow after res size
  | some w =>
    obtain ⟨own,rest⟩ := words w rfl
    exact endsPure ⟨after,fun j inside => own j inside (by omega),fun j behind => rest j (.inr behind)⟩

end

end Autonomizer.Handlers
