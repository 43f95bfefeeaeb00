import Mathlib
import Autonomizer.SecMaps
import Autonomizer.Spans

/-! The taint of each byte: its two bits, and the table of the bytes that are tainted in
part, which is collected from time to time. -/
namespace Autonomizer.VBits
open SecMaps ShadowMemory Spans Total

def sec (table : List SecVBitNode) (a : Addr) : Option UChar :=
  (lookup table (roundDn a)).map (fun n => n.vbits8 (amod a))

/- What get_sec_vbits8 may find. -/
def Filled (v : Option UChar) : Prop := ∃ w, v = some w ∧ vBits8Untainted ≠ w ∧ vBits8Tainted ≠ w

def byteOf (vabits2 : UChar) (sec : Option UChar) : UChar :=
  if vabits2 = vaBits2Untainted then vBits8Untainted
  else if vabits2 = vaBits2Tainted then vBits8Tainted
  else if vabits2 = vaBits2NoAccess then vBits8Untainted
  else sec.getD vBits8Untainted

def vbits (s : ShadowMem) (a : Addr) : UChar := byteOf (va2 s a) (sec s.secVBitTable a)

/- Every byte that is tainted in part is in the table, but for those that are being set. -/
structure Sound (pending : Addr → Prop) (s : ShadowMem) : Prop where
  maps : Maps s
  filled : ∀ a, va2 s a = vaBits2PartUntainted → ¬ pending a → Filled (sec s.secVBitTable a)

theorem va2Cases (s : ShadowMem) (a : Addr) : va2 s a = vaBits2PartUntainted ∨
    ∀ x y, byteOf (va2 s a) x = byteOf (va2 s a) y := by
  have four : ∀ x : UChar, 3 &&& x = 3 ∨ 3 &&& x = 2 ∨ 3 &&& x = 1 ∨ 3 &&& x = 0 := by decide
  rcases four (chunk s a (smOff a) >>> ((a &&& 3) <<< 1).toNat) with here | here | here | here
  · exact .inl here
  all_goals
    rw [va2,extractVabits2FromVabits8,here]
    exact .inr fun _ _ => rfl

structure Taints (f : Addr → UChar) (s : ShadowMem) : Prop where
  sound : Sound (fun _ => False) s
  taint : vbits s = f

theorem roundNat (a : Addr) : (roundDn a).toNat = a.toNat / 16 * 16 :=
  maskedDown (show (15 : Addr) = BitVec.setWidth 64 (BitVec.allOnes 4) from rfl) a

theorem nodeSame {a b : Addr} : roundDn b = roundDn a ∧ amod b = amod a ↔ b = a := by
  rw [← BitVec.toNat_inj,roundNat,roundNat,← BitVec.toNat_inj,amod,amod,bytesPerSecVBitNode]
  omega

theorem inNode (a : Addr) : roundDn a + BitVec.ofNat 64 (amod a) = a := by
  rw [← BitVec.toNat_inj,BitVec.toNat_add,roundNat,BitVec.toNat_ofNat,amod,bytesPerSecVBitNode]
  have := a.isLt
  omega

section
variable {s : ShadowMem} {f : Addr → UChar} {a : Addr} {v : UChar}

theorem showsTaints {t : ShadowMem} (taints : Taints f s) (shows_ : Shows s (va2 s) t) : Taints f t where
  sound := ⟨shows_.maps,fun a part free => by
    rw [shows_.table]
    rw [shows_.bits] at part
    exact taints.sound.filled a part free⟩
  taint := by
    rw [← taints.taint]
    funext a
    rw [vbits,vbits,shows_.bits,shows_.table]

def Live (bits : Addr → UChar) (a : Addr) : Prop :=
  ∃ i < bytesPerSecVBitNode, bits (a + BitVec.ofNat 64 i) = vaBits2PartUntainted

instance (bits : Addr → UChar) (a : Addr) : Decidable (Live bits a) :=
  inferInstanceAs (Decidable (∃ i < bytesPerSecVBitNode, _))

theorem showsTrans {g h : Addr → UChar} {t u : ShadowMem} (first : Shows s g t) (second : Shows t h u) :
    Shows s h u :=
  ⟨second.maps,second.bits,second.table.trans first.table,second.limit.trans first.limit,
    second.growth.trans first.growth⟩

theorem keepsLive (maps : Maps s) (a : Addr) {k : Nat} (short : k ≤ bytesPerSecVBitNode) :
    Ends (keeps a k) s (fun r t => Shows s (va2 s) t ∧ (r = true ↔ ∃ i < bytesPerSecVBitNode,
      bytesPerSecVBitNode - k ≤ i ∧ va2 s (a + BitVec.ofNat 64 i) = vaBits2PartUntainted)) := by
  induction k generalizing s with
  | zero =>
    refine endsPure ⟨⟨maps,rfl,rfl,rfl,rfl⟩,nofun,fun ⟨i,below,above,_⟩ => ?_⟩
    omega
  | succ k ih =>
    unfold keeps
    refine endsBind (getsVa2 maps _) ?_
    rintro _ t ⟨rfl,shows_⟩
    by_cases part : va2 s (a + BitVec.ofNat 64 (bytesPerSecVBitNode - (k + 1))) = vaBits2PartUntainted
    · rw [if_pos part]
      exact endsPure ⟨shows_,fun _ => ⟨_,by omega,le_rfl,part⟩,fun _ => rfl⟩
    · rw [if_neg part]
      refine endsMono (ih shows_.maps (by omega)) ?_
      rintro r u ⟨more,found⟩
      rw [shows_.bits] at found more
      refine ⟨showsTrans shows_ more,found.trans ⟨?_,?_⟩⟩
      · rintro ⟨i,below,above,here⟩
        exact ⟨i,below,by omega,here⟩
      · rintro ⟨i,below,above,here⟩
        refine ⟨i,below,?_,here⟩
        by_contra early
        have same : i = bytesPerSecVBitNode - (k + 1) := by omega
        exact part (same ▸ here)

theorem survivorsLive (maps : Maps s) (nodes : List SecVBitNode) :
    Ends (survivors nodes) s (fun r t => Shows s (va2 s) t ∧
      r = nodes.filter (fun n => Live (va2 s) n.a)) := by
  induction nodes generalizing s with
  | nil => exact endsPure ⟨⟨maps,rfl,rfl,rfl,rfl⟩,rfl⟩
  | cons n rest ih =>
    unfold survivors
    refine endsBind (keepsLive maps n.a le_rfl) ?_
    rintro keep t ⟨shows_,kept⟩
    refine endsBind (ih shows_.maps) ?_
    rintro others u ⟨more,rfl⟩
    rw [shows_.bits] at more ⊢
    refine endsPure ⟨showsTrans shows_ more,?_⟩
    have live : keep = decide (Live (va2 s) n.a) := by
      rw [Bool.eq_iff_iff,kept,decide_eq_true_eq,Nat.sub_self]
      exact exists_congr fun i => and_congr_right fun _ => and_iff_right (Nat.zero_le i)
    rw [List.filter_cons,live]

theorem tableMaps (maps : Maps s) (table : List SecVBitNode) (limit : Int) :
    Maps { s with secVBitTable := table,secVBitLimit := limit } where
  distinguished := maps.distinguished
  issued p n there := maps.issued p n (by cases p <;> exact there)
  alone p q n first second := maps.alone p q n (by cases p <;> exact first) (by cases q <;> exact second)
  cells := maps.cells

theorem collects (maps : Maps s) : Ends gcSecVBitTable s (fun _ t => Maps t ∧ va2 t = va2 s ∧
    t.secVBitTable = s.secVBitTable.filter (fun n => Live (va2 s) n.a)) := by
  unfold gcSecVBitTable
  refine endsGetBind ?_
  refine endsBind (survivorsLive maps _) ?_
  rintro _ t ⟨shows_,rfl⟩
  exact endsModify ⟨tableMaps shows_.maps _ _,shows_.bits,rfl⟩

theorem lookupLive {bits : Addr → UChar} {table : List SecVBitNode} {key : Addr} (live : Live bits key) :
    lookup (table.filter (fun n => Live bits n.a)) key = lookup table key := by
  rw [lookup,lookup,List.find?_filter]
  congr 1
  funext n
  by_cases here : n.a = key
  · simp [here,live]
  · simp [here]

theorem partLive {bits : Addr → UChar} (part : bits a = vaBits2PartUntainted) : Live bits (roundDn a) :=
  ⟨amod a,Nat.mod_lt _ (by decide),by rwa [inNode]⟩

theorem secFilter {bits : Addr → UChar} {table : List SecVBitNode} (part : bits a = vaBits2PartUntainted) :
    sec (table.filter (fun n => Live bits n.a)) a = sec table a := by
  rw [sec,sec,lookupLive (partLive part)]

theorem secMap (table : List SecVBitNode) {n : SecVBitNode} (found : lookup table (roundDn a) = some n) :
    let after := table.map (fun n =>
      if n.a = roundDn a then { n with vbits8 := Function.update n.vbits8 (amod a) v } else n)
    sec after a = some v ∧ ∀ b, b ≠ a → sec after b = sec table b := by
  intro after
  have step (key : Addr) : lookup after key = (lookup table key).map (fun n =>
      if n.a = roundDn a then { n with vbits8 := Function.update n.vbits8 (amod a) v } else n) := by
    rw [lookup,lookup,List.find?_map]
    congr 2
    funext n
    by_cases here : n.a = roundDn a
    · simp [here]
    · simp [here]
  have named {key : Addr} {n : SecVBitNode} (there : lookup table key = some n) : n.a = key := by
    simpa using List.find?_some there
  constructor
  · rw [sec,step,found,Option.map_some,if_pos (named found),Option.map_some]
    exact congrArg some (Function.update_self ..)
  · intro b apart
    rw [sec,sec,step]
    cases there : lookup table (roundDn b) with
    | none => rfl
    | some m =>
      rw [Option.map_some,Option.map_some,Option.map_some]
      by_cases here : m.a = roundDn a
      · rw [if_pos here]
        have other : amod b ≠ amod a := fun same => apart (nodeSame.mp ⟨(named there).symm.trans here,same⟩)
        exact congrArg some (Function.update_of_ne other ..)
      · rw [if_neg here]

theorem secCons (table : List SecVBitNode) (none_ : lookup table (roundDn a) = none) :
    let after := ⟨roundDn a,Function.update (fun _ => vBits8Tainted) (amod a) v⟩ :: table
    sec after a = some v ∧ ∀ b, b ≠ a → Filled (sec table b) → sec after b = sec table b := by
  intro after
  constructor
  · rw [sec,lookup,List.find?_cons_of_pos (by simp),Option.map_some]
    exact congrArg some (Function.update_self (amod a) v fun _ => vBits8Tainted)
  · intro b apart ⟨w,filled,_⟩
    have other : roundDn a ≠ roundDn b := by
      intro same
      rw [sec,← same,none_] at filled
      cases filled
    rw [sec,lookup,List.find?_cons_of_neg (by simpa using other)]
    rfl

theorem getsSec (filled : Filled (sec s.secVBitTable a)) :
    Ends (getSecVbits8 a) s (fun r t => sec s.secVBitTable a = some r ∧ t = s) := by
  obtain ⟨w,found,some_⟩ := filled
  unfold getSecVbits8
  refine endsGetBind ?_
  rw [sec] at found
  obtain ⟨n,there,rfl⟩ := Option.map_eq_some_iff.mp found
  rw [there]
  exact endsAssertBind some_ (endsPure ⟨found,rfl⟩)

theorem setsSec (maps : Maps s) (some_ : vBits8Untainted ≠ v ∧ vBits8Tainted ≠ v) :
    Ends (setSecVbits8 a v) s (fun _ t => Maps t ∧ va2 t = va2 s ∧ sec t.secVBitTable a = some v ∧
      ∀ b, b ≠ a → va2 s b = vaBits2PartUntainted → Filled (sec s.secVBitTable b) →
        sec t.secVBitTable b = sec s.secVBitTable b) := by
  unfold setSecVbits8
  refine endsGetBind ?_
  refine endsAssertBind some_ ?_
  cases found : lookup s.secVBitTable (roundDn a) with
  | some n =>
    obtain ⟨own,others⟩ := secMap (v := v) s.secVBitTable found
    exact endsModify ⟨tableMaps maps _ _,rfl,own,fun b apart _ _ => others b apart⟩
  | none =>
    have made {t : ShadowMem} (maps : Maps t) (bits : va2 t = va2 s)
        (table : t.secVBitTable = s.secVBitTable ∨
          t.secVBitTable = s.secVBitTable.filter (fun n => Live (va2 s) n.a)) :
        Ends (modify (fun s => { s with secVBitTable :=
          ⟨roundDn a,Function.update (fun _ => vBits8Tainted) (amod a) v⟩ :: s.secVBitTable }) : Tool Unit) t
          (fun _ t => Maps t ∧ va2 t = va2 s ∧ sec t.secVBitTable a = some v ∧
            ∀ b, b ≠ a → va2 s b = vaBits2PartUntainted → Filled (sec s.secVBitTable b) →
              sec t.secVBitTable b = sec s.secVBitTable b) := by
      have none_ : lookup t.secVBitTable (roundDn a) = none := by
        rcases table with same | same
        · rw [same,found]
        · rw [same,lookup,List.find?_eq_none]
          intro n inside
          exact List.find?_eq_none.mp found n (List.mem_of_mem_filter inside)
      have kept {b : Addr} (part : va2 s b = vaBits2PartUntainted) :
          sec t.secVBitTable b = sec s.secVBitTable b := by
        rcases table with same | same
        · rw [same]
        · rw [same,secFilter part]
      obtain ⟨own,others⟩ := secCons (v := v) t.secVBitTable none_
      refine endsModify ⟨tableMaps maps _ _,bits,own,fun b apart part filled => ?_⟩
      exact (others b apart (by rwa [kept part])).trans (kept part)
    by_cases full : s.secVBitLimit = s.secVBitTable.length
    · simp only [if_pos full]
      exact endsBind (collects maps) fun _ t ⟨maps,bits,table⟩ => made maps bits (.inr table)
    · simp only [if_neg full]
      exact made maps rfl (.inl rfl)

theorem getsByte (taints : Taints f s) (a : Addr) :
    Ends (getVbits8 a) s (fun r t => r.2 = f a ∧ Taints f t) := by
  unfold getVbits8
  refine endsBind (getsVa2 taints.sound.maps a) ?_
  rintro _ t ⟨rfl,shows_⟩
  have after := showsTaints taints shows_
  have byte : f a = byteOf (va2 s a) (sec s.secVBitTable a) := by rw [← taints.taint]; rfl
  by_cases untainted : vaBits2Untainted = va2 s a
  · rw [if_pos untainted]
    exact endsPure ⟨by rw [byte,byteOf,if_pos untainted.symm],after⟩
  · rw [if_neg untainted]
    by_cases tainted : vaBits2Tainted = va2 s a
    · rw [if_pos tainted]
      exact endsPure ⟨by rw [byte,byteOf,if_neg (Ne.symm untainted),if_pos tainted.symm],after⟩
    · rw [if_neg tainted]
      by_cases noAccess : vaBits2NoAccess = va2 s a
      · rw [if_pos noAccess]
        refine endsPure ⟨?_,after⟩
        rw [byte,byteOf,if_neg (Ne.symm untainted),if_neg (Ne.symm tainted),if_pos noAccess.symm]
      · rw [if_neg noAccess]
        -- two bits have no fourth value
        have part : vaBits2PartUntainted = va2 s a := by
          refine ((va2Cases s a).resolve_right fun plain => ?_).symm
          have both := plain (some vBits8Untainted) (some vBits8Tainted)
          rw [byteOf,byteOf,if_neg (Ne.symm untainted),if_neg (Ne.symm untainted),if_neg (Ne.symm tainted),
            if_neg (Ne.symm tainted),if_neg (Ne.symm noAccess),if_neg (Ne.symm noAccess)] at both
          cases both
        refine endsAssertBind part ?_
        have filled := after.sound.filled a (by rw [shows_.bits,← part]) id
        refine endsBind (getsSec filled) ?_
        rintro w _ ⟨found,rfl⟩
        refine endsPure ⟨?_,after⟩
        rw [shows_.table] at found
        rw [byte,byteOf,if_neg (Ne.symm untainted),if_neg (Ne.symm tainted),if_neg (Ne.symm noAccess),found]
        rfl

theorem plainTaints {t : ShadowMem} (taints : Taints f s) (maps : Maps t)
    (table : t.secVBitTable = s.secVBitTable) {n : Nat} {v2 : UChar} (small : v2 < 3)
    (bits : va2 t = overwrite (va2 s) a n (fun _ => v2)) :
    Taints (overwrite f a n (fun _ => byteOf v2 none)) t := by
  have three : ∀ x < (3 : UChar), x ≠ 3 ∧ (x = 2 ∨ x = 1 ∨ x = 0) := by decide
  obtain ⟨plain,cases_⟩ := three v2 small
  refine ⟨⟨maps,fun b part free => ?_⟩,?_⟩
  · rw [table]
    rw [bits,overwrite] at part
    by_cases inside : Within a n b
    · rw [if_pos inside] at part
      exact absurd part plain
    · rw [if_neg inside] at part
      exact taints.sound.filled b part free
  · funext b
    rw [vbits,bits,table,overwrite,overwrite]
    by_cases inside : Within a n b
    · rw [if_pos inside,if_pos inside]
      rcases cases_ with rfl | rfl | rfl <;> rfl
    · rw [if_neg inside,if_neg inside,← taints.taint]
      rfl

theorem setsPlain (taints : Taints f s) {v2 : UChar} (small : v2 < 3) :
    Ends (setVabits2 a v2) s (fun _ t => Taints (Function.update f a (byteOf v2 none)) t) := by
  have four : v2 < 4 := BitVec.lt_trans small (by decide)
  refine endsMono (setsVa2 taints.sound.maps a four) ?_
  intro _ t shows_
  have one := plainTaints (n := 1) taints shows_.maps shows_.table small (by rw [shows_.bits,overwriteOne])
  rwa [overwriteOne] at one

theorem partTaints {t : ShadowMem} (taints : Taints f s) (some_ : vBits8Untainted ≠ v ∧ vBits8Tainted ≠ v)
    (maps : Maps t) (bits : va2 t = Function.update (va2 s) a vaBits2PartUntainted)
    (own : sec t.secVBitTable a = some v)
    (others : ∀ b, b ≠ a → va2 s b = vaBits2PartUntainted → Filled (sec s.secVBitTable b) →
      sec t.secVBitTable b = sec s.secVBitTable b) : Taints (Function.update f a v) t := by
  have kept {b : Addr} (apart : b ≠ a) (part : va2 s b = vaBits2PartUntainted) :
      sec t.secVBitTable b = sec s.secVBitTable b := others b apart part (taints.sound.filled b part id)
  refine ⟨⟨maps,fun b part free => ?_⟩,?_⟩
  · by_cases here : b = a
    · subst here
      exact ⟨v,own,some_⟩
    · rw [bits,Function.update_of_ne here] at part
      rw [kept here part]
      exact taints.sound.filled b part free
  · funext b
    rw [vbits,bits]
    by_cases here : b = a
    · subst here
      rw [Function.update_self,Function.update_self,own]
      rfl
    · rw [Function.update_of_ne here,Function.update_of_ne here,← taints.taint,vbits]
      by_cases part : va2 s b = vaBits2PartUntainted
      · rw [kept here part]
      · exact (va2Cases s b).resolve_left part _ _

theorem setsByte (taints : Taints f s) (a : Addr) (v : UChar) :
    Ends (setVbits8 a v) s (fun _ t => Taints (Function.update f a v) t) := by
  unfold setVbits8
  refine endsBind (getsVa2 taints.sound.maps a) ?_
  rintro _ t ⟨_,shows_⟩
  have after := showsTaints taints shows_
  by_cases untainted : vBits8Untainted = v
  · simp only [if_pos untainted]
    refine endsPureBind (endsBind (setsPlain after (by decide)) fun _ u done => endsPure ?_)
    rw [← untainted]
    exact done
  · simp only [if_neg untainted]
    by_cases tainted : vBits8Tainted = v
    · simp only [if_pos tainted]
      refine endsPureBind (endsBind (setsPlain after (by decide)) fun _ u done => endsPure ?_)
      rw [← tainted]
      exact done
    · simp only [if_neg tainted,pure_bind]
      refine endsBind (setsSec after.sound.maps ⟨untainted,tainted⟩) ?_
      rintro _ u ⟨maps,bits,own,others⟩
      refine endsBind (setsVa2 maps a (by decide)) fun _ w done => endsPure ?_
      refine partTaints after ⟨untainted,tainted⟩ done.maps (by rw [done.bits,bits]) ?_ ?_
      · rw [done.table]
        exact own
      · rw [done.table]
        exact others

end

end Autonomizer.VBits
