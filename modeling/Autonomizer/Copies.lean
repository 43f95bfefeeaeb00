import Mathlib
import Autonomizer.AddressRange
import Autonomizer.Handlers

/-! A range of taint that is copied over another: each of the loops leaves what the ranges
held before, however they overlap. -/
namespace Autonomizer.Copies
open AddressRange Handlers LoadStore SecMaps ShadowMemory Spans Total VBits Words

section
variable {s : ShadowMem} {f : Addr → UChar} {src dst : Addr}

theorem fourValues (s : ShadowMem) (a : Addr) : va2 s a < 4 := by
  have small : ∀ x : UChar, 3 &&& x < 4 := by decide
  exact small _

theorem copiesByte (taints : Taints f s) (src dst : Addr) : Ends (copyByte src dst) s
    (fun _ t => Taints (Function.update f dst (f src)) t) := by
  unfold copyByte
  refine endsBind (getsVa2 taints.sound.maps src) ?_
  rintro _ t ⟨rfl,shows_⟩
  have after := showsTaints taints shows_
  have byte : f src = byteOf (va2 s src) (sec s.secVBitTable src) := by rw [← taints.taint]; rfl
  by_cases part : vaBits2PartUntainted = va2 s src
  · simp only [if_pos part]
    refine endsBind (setsVa2 after.sound.maps dst (fourValues s src)) ?_
    intro _ u wrote
    have filled := after.sound.filled src (by rw [shows_.bits,← part]) id
    rw [← wrote.table] at filled
    refine endsBind (getsSec filled) ?_
    rintro w u' ⟨found,rfl⟩
    obtain ⟨v,same,some_⟩ := filled
    cases found.symm.trans same
    refine endsMono (setsSec wrote.maps some_) ?_
    intro _ x ⟨maps,bits,own,others⟩
    have value : f src = w := by
      rw [wrote.table,shows_.table] at found
      rw [byte,← part,found]
      rfl
    rw [value]
    refine partTaints after some_ maps ?_ own fun b apart mine full => ?_
    · rw [bits,wrote.bits,part]
    · rw [← wrote.table] at full ⊢
      refine others b apart ?_ full
      rw [wrote.bits,Function.update_of_ne apart,mine]
  · simp only [if_neg part]
    have plain : va2 s src < 3 := by
      have four : ∀ x < (4 : UChar), 3 ≠ x → x < 3 := by decide
      exact four _ (fourValues s src) part
    have same : byteOf (va2 s src) none = f src := by
      rw [byte]
      exact (va2Cases s src).resolve_left (Ne.symm part) _ _
    refine endsBind (setsPlain after plain) fun _ u done => endsPure ?_
    rwa [same] at done

/- The two bits of a word are copied, and the table for the first k bytes of it. -/
structure Copied (s : ShadowMem) (src dst : Addr) (k : Nat) (u : ShadowMem) : Prop where
  maps : Maps u
  bits : va2 u = overwrite (va2 s) dst 4 (fun i => va2 s (src + BitVec.ofNat 64 i))
  others : ∀ b, ¬ Within dst 4 b → va2 s b = vaBits2PartUntainted →
    sec u.secVBitTable b = sec s.secVBitTable b
  done : ∀ i < k, va2 s (src + BitVec.ofNat 64 i) = vaBits2PartUntainted →
    sec u.secVBitTable (dst + BitVec.ofNat 64 i) = sec s.secVBitTable (src + BitVec.ofNat 64 i)

section
variable {u : ShadowMem} {k : Nat}

theorem copiedBit (copied : Copied s src dst k u) {i : Nat} (inside : i < 4) :
    va2 u (dst + BitVec.ofNat 64 i) = va2 s (src + BitVec.ofNat 64 i) := by
  rw [copied.bits,overwrite,if_pos (withinNth (by decide) inside),offset (by omega)]

theorem copiedBeside (copied : Copied s src dst k u) {b : Addr} (beside : ¬ Within dst 4 b) :
    va2 u b = va2 s b := by
  rw [copied.bits,overwrite,if_neg beside]

theorem copiesSec (taints : Taints f s) (apart : ∀ i < 4, ¬ Within dst 4 (src + BitVec.ofNat 64 i))
    (copied : Copied s src dst k u) (inside : k < 4) :
    Ends (copySecVbits8 (src + BitVec.ofNat 64 k) (dst + BitVec.ofNat 64 k)) u
      (fun _ t => Copied s src dst (k + 1) t) := by
  have source := copiedBeside copied (apart k inside)
  unfold copySecVbits8
  refine endsBind (getsVa2 copied.maps _) ?_
  rintro _ t ⟨rfl,shows_⟩
  have kept : Copied s src dst k t := by
    refine ⟨shows_.maps,by rw [shows_.bits,copied.bits],?_,?_⟩
    · rw [shows_.table]
      exact copied.others
    · rw [shows_.table]
      exact copied.done
  refine endsIte (fun part => ?_) fun plain => endsPure ?_
  · have mine : va2 s (src + BitVec.ofNat 64 k) = vaBits2PartUntainted := source.symm.trans part.symm
    have filled := taints.sound.filled _ mine id
    have there := kept.others _ (apart k inside) mine
    rw [← there] at filled
    refine endsBind (getsSec filled) ?_
    rintro w t' ⟨found,rfl⟩
    obtain ⟨v,same,some_⟩ := filled
    cases found.symm.trans same
    refine endsMono (setsSec kept.maps some_) ?_
    intro _ x ⟨maps,bits,own,others⟩
    have bytes := bits.trans kept.bits
    refine ⟨maps,bytes,fun b beside here => ?_,fun i below here => ?_⟩
    · have different : b ≠ dst + BitVec.ofNat 64 k := by
        rintro rfl
        exact beside (withinNth (by decide) inside)
      have before := kept.others b beside here
      refine (others b different ((copiedBeside kept beside).trans here) ?_).trans before
      rw [before]
      exact taints.sound.filled b here id
    · by_cases last : i = k
      · subst last
        rw [own,← there,found]
      · have different : dst + BitVec.ofNat 64 i ≠ dst + BitVec.ofNat 64 k := by
          intro both
          have offsets : (dst + BitVec.ofNat 64 i - dst).toNat = (dst + BitVec.ofNat 64 k - dst).toNat := by
            rw [both]
          rw [offset (by omega),offset (by omega)] at offsets
          exact last offsets
        have before := kept.done i (by omega) here
        refine (others _ different ((copiedBit kept (by omega)).trans here) ?_).trans before
        rw [before]
        exact taints.sound.filled _ here id
  · refine ⟨kept.maps,kept.bits,kept.others,fun i below here => ?_⟩
    by_cases last : i = k
    · subst last
      exact absurd (source.trans here).symm plain
    · exact kept.done i (by omega) here

theorem copiedTaints (taints : Taints f s) (copied : Copied s src dst 4 u) :
    Taints (moved f src dst 4) u := by
  have byte (b : Addr) : f b = byteOf (va2 s b) (sec s.secVBitTable b) := by rw [← taints.taint]; rfl
  refine ⟨⟨copied.maps,fun b part _ => ?_⟩,?_⟩
  · by_cases inside : Within dst 4 b
    · have here : dst + BitVec.ofNat 64 (b - dst).toNat = b := atOffset
      have mine := copiedBit copied inside
      rw [here,part] at mine
      have table := copied.done _ inside mine.symm
      rw [here] at table
      rw [table]
      exact taints.sound.filled _ mine.symm id
    · have mine := (copiedBeside copied inside).symm.trans part
      rw [copied.others b inside mine]
      exact taints.sound.filled b mine id
  · funext b
    rw [vbits,moved,overwrite]
    by_cases inside : Within dst 4 b
    · have here : dst + BitVec.ofNat 64 (b - dst).toNat = b := atOffset
      have mine := copiedBit copied inside
      rw [here] at mine
      rw [if_pos inside,mine,byte]
      by_cases part : va2 s (src + BitVec.ofNat 64 (b - dst).toNat) = vaBits2PartUntainted
      · have table := copied.done _ inside part
        rw [here] at table
        rw [table]
      · exact (va2Cases s _).resolve_left part _ _
    · rw [if_neg inside,copiedBeside copied inside,byte]
      by_cases part : va2 s b = vaBits2PartUntainted
      · rw [copied.others b inside part]
      · exact (va2Cases s _).resolve_left part _ _

end

theorem nthAligned {a : Addr} (aligned : isAligned 4 a) {i : Nat} (inside : i < 4) :
    (a + BitVec.ofNat 64 i).toNat / 4 = a.toNat / 4 ∧ (a + BitVec.ofNat 64 i).toNat % 4 = i := by
  unfold isAligned at aligned
  have low := a.isLt
  rw [addNat (by omega),if_pos (by omega)]
  omega

theorem copiesWord (taints : Taints f s) (alignedSrc : isAligned 4 src) (alignedDst : isAligned 4 dst)
    (apart : ∀ i < 4, ¬ Within dst 4 (src + BitVec.ofNat 64 i)) : Ends (copyWord src dst) s
      (fun _ t => Taints (moved f src dst 4) t) := by
  unfold copyWord getVabits8ForAlignedWord32 setVabits8ForAlignedWord32
  simp only [bind_assoc,pure_bind]
  refine endsBind (reads (a := src) taints.sound.maps) ?_
  rintro _ t ⟨rfl,_,maps,alike⟩
  refine endsGetBind ?_
  have word : t.vabits8 (secmap t src) (smOff src) = chunk s src (smOff src) := alike.chunk src (smOff src)
  rw [word]
  refine endsBind (writes (a := dst) maps) ?_
  rintro _ u ⟨⟨n,rfl⟩,there,mapsU,more⟩
  have both := alikeTrans alike more
  refine endsModifyBind ?_
  have lanes {i : Nat} (inside : i < 4) :
      extractVabits2FromVabits8 (dst + BitVec.ofNat 64 i) (chunk s src (smOff src)) =
        va2 s (src + BitVec.ofNat 64 i) := by
    obtain ⟨block,lane⟩ := nthAligned alignedSrc inside
    obtain ⟨slot,off⟩ := wordSame.mpr block
    rw [va2,chunk,chunk,secmap,secmap,slot,off,extractVabits2FromVabits8,extractVabits2FromVabits8,laneNat,
      laneNat,lane,(nthAligned alignedDst inside).2]
  have start : Copied s src dst 0 (u.put (.allocated n) (smOff dst) (chunk s src (smOff src))) := by
    refine ⟨putMaps mapsU,?_,fun b _ _ => ?_,fun k before => by cases before⟩
    · funext b
      rw [putBits mapsU there,overwrite,alikeVa2 both]
      simp only [withinBlock alignedDst (show 4 ∣ 2 ^ 64 by decide),wordSame]
      by_cases block : b.toNat / 4 = dst.toNat / 4
      · have inside : Within dst 4 b := (withinBlock alignedDst (by decide)).mpr block
        rw [if_pos block,if_pos block,← lanes inside,atOffset]
      · rw [if_neg block,if_neg block]
    · show sec u.secVBitTable b = _
      rw [both.table]
  generalize u.put (.allocated n) (smOff dst) (chunk s src (smOff src)) = w at start
  refine endsIte (fun plain => endsPure (copiedTaints taints ?_)) fun _ => ?_
  · -- none of the four bytes is in the table
    refine ⟨start.maps,start.bits,start.others,fun i inside part => ?_⟩
    have dsm : ∃ d : Dsm, chunk s src (smOff src) = d.vaBits8 := by
      rcases plain with here | here | here
      · exact ⟨.untainted,here.symm⟩
      · exact ⟨.tainted,here.symm⟩
      · exact ⟨.noAccess,here.symm⟩
    obtain ⟨d,full⟩ := dsm
    have kind := wordFull full (nthAligned alignedSrc inside).1
    rw [kind] at part
    cases d <;> cases part
  · refine endsBind (copiesSec taints apart start (by decide)) fun _ _ first => ?_
    refine endsBind (copiesSec taints apart first (by decide)) fun _ _ second => ?_
    refine endsBind (copiesSec taints apart second (by decide)) fun _ _ third => ?_
    exact endsMono (copiesSec taints apart third (by decide)) fun _ _ last => copiedTaints taints last

/- Neither range goes round, and what is read later lies where nothing has been written. -/
structure Ahead (src dst : Addr) (n : Nat) : Prop where
  srcEnds : src.toNat + n < 2 ^ 64
  dstEnds : dst.toNat + n < 2 ^ 64
  unread : dst.toNat < src.toNat ∨ src.toNat + n ≤ dst.toNat

theorem aheadApart {n m i : Nat} (ahead : Ahead src dst n) (before : m ≤ i) (inside : i < n) :
    ¬ Within dst m (src + BitVec.ofNat 64 i) := by
  obtain ⟨srcEnds,dstEnds,unread⟩ := ahead
  rw [withinLinear (by omega),addNat (by omega),if_pos (by omega)]
  omega

theorem aheadOn {n m : Nat} (ahead : Ahead src dst n) (inside : m ≤ n) :
    Ahead (src + BitVec.ofNat 64 m) (dst + BitVec.ofNat 64 m) (n - m) := by
  obtain ⟨srcEnds,dstEnds,unread⟩ := ahead
  have place {a : Addr} (ends : a.toNat + n < 2 ^ 64) : (a + BitVec.ofNat 64 m).toNat = a.toNat + m := by
    rw [addNat (by omega),if_pos (by omega)]
  have left := place srcEnds
  have right := place dstEnds
  exact ⟨by omega,by omega,by omega⟩

theorem movedAhead {n m : Nat} (ahead : Ahead src dst n) (inside : m ≤ n) :
    moved (moved f src dst m) (src + BitVec.ofNat 64 m) (dst + BitVec.ofNat 64 m) (n - m) = moved f src dst n := by
  have ends := ahead.srcEnds
  rw [movedOnward (by omega) (by omega) fun j less => aheadApart ahead (by omega) (by omega),
    Nat.add_sub_cancel' inside]

theorem copiesUp {i : Addr} {len : Nat} (taints : Taints f s) (ahead : Ahead (src + i) (dst + i) len) :
    Ends (copyUp src dst i len) s (fun _ t => Taints (moved f (src + i) (dst + i) len) t) := by
  induction len generalizing s f i with
  | zero =>
    refine endsPure ?_
    rwa [moved,overwriteNone]
  | succ len ih =>
    unfold copyUp
    refine endsBind (copiesByte taints _ _) ?_
    intro _ t first
    have next := aheadOn ahead (m := 1) (by omega)
    have whole := movedAhead (f := f) ahead (m := 1) (by omega)
    rw [movedOne,BitVec.add_assoc,BitVec.add_assoc] at whole
    rw [BitVec.add_assoc,BitVec.add_assoc] at next
    rw [← whole]
    exact ih first next

theorem copiesDown {len : Nat} (taints : Taints f s) (order : src.toNat < dst.toNat)
    (srcEnds : src.toNat + len ≤ 2 ^ 64) (dstEnds : dst.toNat + len ≤ 2 ^ 64) :
    Ends (copyDown src dst len) s (fun _ t => Taints (moved f src dst len) t) := by
  induction len generalizing s f with
  | zero =>
    refine endsPure ?_
    rwa [moved,overwriteNone]
  | succ j ih =>
    unfold copyDown
    refine endsBind (copiesByte taints _ _) ?_
    intro _ t first
    have low := src.isLt
    have whole : moved (moved f (src + BitVec.ofNat 64 j) (dst + BitVec.ofNat 64 j) 1) src dst j =
        moved f src dst (j + 1) := by
      refine movedBack (by omega) (by omega) fun i inside => ?_
      rw [withinOne,← BitVec.toNat_inj,addNat (by omega),addNat (by omega),if_pos (by omega),if_pos (by omega)]
      omega
    rw [movedOne] at whole
    rw [← whole]
    exact ih first (by omega) (by omega)

theorem copiesWords {i : Addr} {len : Nat} (taints : Taints f s) (ahead : Ahead (src + i) (dst + i) len)
    (alignedSrc : isAligned 4 (src + i)) (alignedDst : isAligned 4 (dst + i)) :
    Ends (copyWords src dst i len >>= fun (i,len) => copyUp src dst i len) s
      (fun _ t => Taints (moved f (src + i) (dst + i) len) t) := by
  fun_induction copyWords src dst i len generalizing s f with
  | case1 i len ih =>
    have apart (k : Nat) (inside : k < 4) : ¬ Within (dst + i) 4 (src + i + BitVec.ofNat 64 k) := by
      obtain ⟨srcEnds,dstEnds,unread⟩ := ahead
      unfold isAligned at alignedSrc alignedDst
      rw [withinLinear (by omega),addNat (by omega),if_pos (by omega)]
      omega
    rw [bind_assoc]
    refine endsBind (copiesWord taints alignedSrc alignedDst apart) ?_
    intro _ t first
    have next := aheadOn ahead (m := 4) (by omega)
    have whole := movedAhead (f := f) ahead (m := 4) (by omega)
    rw [BitVec.add_assoc,BitVec.add_assoc] at next whole
    have aligned {a : Addr} (before : isAligned 4 (a + i)) : isAligned 4 (a + (i + 4)) := by
      unfold isAligned at before ⊢
      rw [← BitVec.add_assoc,BitVec.toNat_add,show (4 : Addr).toNat = 4 from rfl]
      omega
    rw [← whole]
    exact ih first next (aligned alignedSrc) (aligned alignedDst)
  | case2 i len few => exact copiesUp taints ahead

theorem copies (taints : Taints f s) {len : SizeT} (srcEnds : src.toNat + len.toNat < 2 ^ 64)
    (dstEnds : dst.toNat + len.toNat < 2 ^ 64) :
    Ends (copyAddressRangeState src dst len) s (fun _ t => Taints (moved f src dst len.toNat) t) := by
  have none_ (a : Addr) : a + 0 = a := BitVec.add_zero a
  unfold copyAddressRangeState
  refine endsIte (fun nothing => endsPure ?_) fun some_ => ?_
  · rcases nothing with rfl | rfl
    · rwa [show (0 : SizeT).toNat = 0 from rfl,moved,overwriteNone]
    · have same : moved f src src len.toNat = f := by
        funext b
        rw [moved,overwrite]
        split
        · rw [atOffset]
        · rfl
      rwa [same]
  obtain ⟨_,different⟩ := not_or.mp some_
  have different : src.toNat ≠ dst.toNat := mt BitVec.toNat_inj.mp different
  refine endsIte (fun upwards => ?_) fun _ => ?_
  · obtain ⟨nooverlap,alignedSrc,alignedDst⟩ := upwards
    have ahead : Ahead src dst len.toNat := by
      refine ⟨srcEnds,dstEnds,?_⟩
      rw [BitVec.le_def,BitVec.le_def,BitVec.toNat_add,BitVec.toNat_add,Nat.mod_eq_of_lt srcEnds,
        Nat.mod_eq_of_lt dstEnds] at nooverlap
      omega
    rw [← none_ src,← none_ dst] at ahead
    rw [← none_ src] at alignedSrc
    rw [← none_ dst] at alignedDst
    have words := copiesWords taints ahead alignedSrc alignedDst
    rwa [none_,none_] at words
  · by_cases below : src < dst
    · have above : ¬ dst < src := BitVec.not_lt.mpr (BitVec.le_of_lt below)
      simp only [if_pos below,if_neg above]
      rw [BitVec.lt_def] at below
      exact endsBind (copiesDown taints below (by omega) (by omega)) fun _ _ done => endsPure done
    · have above : dst < src := by
        rw [BitVec.lt_def] at below ⊢
        omega
      simp only [if_neg below,if_pos above]
      rw [BitVec.lt_def] at above
      have ahead : Ahead (src + 0) (dst + 0) len.toNat := by
        rw [none_,none_]
        exact ⟨srcEnds,dstEnds,.inl above⟩
      have up := copiesUp taints ahead
      rwa [none_,none_] at up

end

end Autonomizer.Copies
