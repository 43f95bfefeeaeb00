import Mathlib
import Autonomizer.ShadowMemory

/-! The secondary maps of the shadow memory: whatever the primary map, the queue in front of
the auxiliary map and the sharing of the distinguished maps do, every address has two bits
of its own. -/
namespace Autonomizer.SecMaps
open ShadowMemory Total

theorem maskedDown {n : Nat} {mask : Addr} (low : mask = BitVec.setWidth 64 (BitVec.allOnes n)) (a : Addr) :
    (a &&& ~~~mask).toNat = a.toNat / 2 ^ n * 2 ^ n := by
  have shifted : a &&& ~~~mask = (a >>> n) <<< n := by
    subst low
    ext i here
    simp only [BitVec.getElem_and,BitVec.getElem_not,BitVec.getElem_shiftLeft,BitVec.getElem_setWidth,
      BitVec.getLsbD_allOnes]
    by_cases below : i < n
    · simp [below]
    · simp [below,here,BitVec.getLsbD_eq_getElem,show n + (i - n) = i by omega]
  have small : a.toNat / 2 ^ n * 2 ^ n < 2 ^ 64 := lt_of_le_of_lt (Nat.div_mul_le_self _ _) a.isLt
  rw [shifted,BitVec.toNat_shiftLeft,BitVec.toNat_ushiftRight,Nat.shiftRight_eq_div_pow,Nat.shiftLeft_eq,
    Nat.mod_eq_of_lt small]

theorem masked {n : Nat} {mask : Addr} (low : mask = BitVec.setWidth 64 (BitVec.allOnes n)) (fits : n ≤ 64)
    (a : Addr) : (a &&& mask).toNat = a.toNat % 2 ^ n := by
  have ones : (BitVec.setWidth 64 (BitVec.allOnes n)).toNat = 2 ^ n - 1 := by
    rw [BitVec.toNat_setWidth,BitVec.toNat_allOnes]
    refine Nat.mod_eq_of_lt ?_
    have := Nat.pow_le_pow_right (show 0 < 2 by decide) fits
    have := Nat.two_pow_pos n
    omega
  rw [BitVec.toNat_and,low,ones,Nat.and_two_pow_sub_one_eq_mod]

theorem low16 : (0xFFFF : Addr) = BitVec.setWidth 64 (BitVec.allOnes 16) := rfl

theorem baseNat (a : Addr) : (a &&& ~~~0xFFFF).toNat = a.toNat / 65536 * 65536 := maskedDown low16 a

theorem smOffNat (a : Addr) : smOff a = a.toNat % 65536 / 4 := by
  rw [smOff,BitVec.toNat_ushiftRight,masked low16 (by decide),Nat.shiftRight_eq_div_pow]
  rfl

theorem smOff16Nat (a : Addr) : smOff16 a = a.toNat % 65536 / 8 := by
  rw [smOff16,BitVec.toNat_ushiftRight,masked low16 (by decide),Nat.shiftRight_eq_div_pow]
  rfl

theorem laneNat (a : Addr) : ((a &&& 3) <<< 1).toNat = 2 * (a.toNat % 4) := by
  have low : (a &&& 3).toNat = a.toNat % 4 :=
    masked (show (3 : Addr) = BitVec.setWidth 64 (BitVec.allOnes 2) from rfl) (by decide) a
  rw [BitVec.toNat_shiftLeft,low,Nat.shiftLeft_eq]
  omega

theorem extractMade : ∀ v < (4 : UChar), ∀ x : UChar, ∀ i < 4, ∀ j < 4,
    (3 : UChar) &&& (((x &&& ~~~((3 : UChar) <<< (2 * i))) ||| (v <<< (2 * i))) >>> (2 * j)) =
      if i = j then v else 3 &&& (x >>> (2 * j)) := by
  decide +kernel

theorem extractInsert (a b : Addr) {v : UChar} (small : v < 4) (x : UChar) :
    extractVabits2FromVabits8 b (insertVabits2IntoVabits8 a v x) =
      if a.toNat % 4 = b.toNat % 4 then v else extractVabits2FromVabits8 b x := by
  rw [extractVabits2FromVabits8,extractVabits2FromVabits8,insertVabits2IntoVabits8,laneNat,laneNat]
  exact extractMade v small x _ (Nat.mod_lt _ (by decide)) _ (Nat.mod_lt _ (by decide))

def slotOf (a : Addr) : Slot :=
  if a ≤ maxPrimaryAddress then .primary (a >>> 16).toNat else .aux (a &&& ~~~0xFFFF)

theorem lowNat (a : Addr) : a ≤ maxPrimaryAddress ↔ a.toNat / 65536 < nPrimaryMap := by
  rw [BitVec.le_def,show maxPrimaryAddress.toNat = 34359738367 from rfl,show nPrimaryMap = 524288 from rfl]
  omega

theorem slotSame {a b : Addr} : slotOf a = slotOf b ↔ a.toNat / 65536 = b.toNat / 65536 := by
  have shifted (c : Addr) : (c >>> 16).toNat = c.toNat / 65536 := by
    rw [BitVec.toNat_ushiftRight,Nat.shiftRight_eq_div_pow]
  have base : (a &&& ~~~0xFFFF) = (b &&& ~~~0xFFFF) ↔ a.toNat / 65536 = b.toNat / 65536 := by
    rw [← BitVec.toNat_inj,baseNat,baseNat]
    omega
  unfold slotOf
  by_cases left : a ≤ maxPrimaryAddress <;> by_cases right : b ≤ maxPrimaryAddress
  · rw [if_pos left,if_pos right,Slot.primary.injEq,shifted,shifted]
  · rw [if_pos left,if_neg right]
    rw [lowNat] at left right
    exact ⟨nofun,fun same => absurd (same ▸ left) right⟩
  · rw [if_neg left,if_pos right]
    rw [lowNat] at left right
    exact ⟨nofun,fun same => absurd (same ▸ right) left⟩
  · rw [if_neg left,if_neg right,Slot.aux.injEq,base]

theorem wordSame {a b : Addr} : (slotOf b = slotOf a ∧ smOff b = smOff a) ↔ b.toNat / 4 = a.toNat / 4 := by
  rw [slotSame,smOffNat,smOffNat]
  omega

theorem addrSame {a b : Addr} :
    (slotOf b = slotOf a ∧ smOff b = smOff a) ∧ a.toNat % 4 = b.toNat % 4 ↔ b = a := by
  rw [wordSame,← BitVec.toNat_inj]
  omega

def Cells (l1 : Nat → AuxCell) (l2 : Addr → Option SmPtr) : Prop :=
  ∀ i < nAuxmapL1, l1 i = ⟨0,none⟩ ∨ ((l1 i).ent = some (l1 i).base ∧ l2 (l1 i).base ≠ none)

/- A distinguished map is as it was made, and one that was allocated is in one slot only. -/
structure Maps (s : ShadowMem) : Prop where
  distinguished : ∀ d i, s.smDistinguished d i = d.vaBits8
  issued : ∀ p n, s.at_ p = some (.allocated n) → n < s.issued ∧ s.mapped n = true
  alone : ∀ p q n, s.at_ p = some (.allocated n) → s.at_ q = some (.allocated n) → p = q
  cells : Cells s.auxmapL1 s.auxmapL2

def secmap (s : ShadowMem) (a : Addr) : SmPtr := (s.at_ (slotOf a)).getD (.distinguished .noAccess)

def chunk (s : ShadowMem) (a : Addr) (i : Nat) : UChar := s.vabits8 (secmap s a) i

def va2 (s : ShadowMem) (a : Addr) : UChar := extractVabits2FromVabits8 a (chunk s a (smOff a))

structure Alike (s t : ShadowMem) : Prop where
  chunk : ∀ a i, chunk t a i = chunk s a i
  table : t.secVBitTable = s.secVBitTable
  limit : t.secVBitLimit = s.secVBitLimit
  growth : t.growth = s.growth

theorem alikeRefl (s : ShadowMem) : Alike s s := ⟨fun _ _ => rfl,rfl,rfl,rfl⟩

theorem alikeTrans {s t u : ShadowMem} (first : Alike s t) (second : Alike t u) : Alike s u where
  chunk a i := (second.chunk a i).trans (first.chunk a i)
  table := second.table.trans first.table
  limit := second.limit.trans first.limit
  growth := second.growth.trans first.growth

theorem alikeVa2 {s t : ShadowMem} (alike : Alike s t) : va2 t = va2 s := by
  funext a
  rw [va2,va2,alike.chunk]

section
variable {s : ShadowMem} {a : Addr}

theorem baseAbove (high : maxPrimaryAddress < a) : a &&& ~~~0xFFFF ≠ 0 := by
  have above : ¬ a ≤ maxPrimaryAddress := BitVec.not_le.mpr high
  rw [lowNat,show nPrimaryMap = 524288 from rfl] at above
  rw [ne_eq,← BitVec.toNat_inj,baseNat,show (0 : Addr).toNat = 0 from rfl]
  omega

section
variable {l1 : Nat → AuxCell} {l2 : Addr → Option SmPtr}

theorem cellFound (cells : Cells l1 l2) {i : Nat} (inside : i < nAuxmapL1) (found : (l1 i).base = a)
    (some_ : a ≠ 0) : (l1 i).ent = some a ∧ l2 a ≠ none := by
  rcases cells i inside with empty | ⟨ent,node⟩
  · rw [empty] at found
    exact absurd found.symm some_
  · rw [found] at ent node
    exact ⟨ent,node⟩

theorem cellsSwap (cells : Cells l1 l2) {i : Nat} (inside : i < nAuxmapL1) : Cells (swapUp i l1) l2 := by
  intro j below
  unfold swapUp
  by_cases here : j = i
  · subst here
    rw [Function.update_self]
    exact cells (j - 1) (lt_of_le_of_lt (Nat.sub_le _ _) inside)
  · rw [Function.update_of_ne here]
    by_cases before : j = i - 1
    · subst before
      rw [Function.update_self]
      exact cells i inside
    · rw [Function.update_of_ne before]
      exact cells j below

theorem cellsInsert (cells : Cells l1 l2) (rank : Nat) (node : l2 a ≠ none) :
    Cells (fun i => if i < rank then l1 i else if i = rank then ⟨a,some a⟩ else l1 (i - 1)) l2 := by
  intro i inside
  show (if i < rank then l1 i else if i = rank then ⟨a,some a⟩ else l1 (i - 1)) = ⟨0,none⟩ ∨ _
  by_cases before : i < rank
  · simp only [if_pos before]
    exact cells i inside
  · simp only [if_neg before]
    by_cases here : i = rank
    · simp only [if_pos here]
      exact .inr ⟨trivial,node⟩
    · simp only [if_neg here]
      exact cells (i - 1) (lt_of_le_of_lt (Nat.sub_le _ _) inside)

theorem cellsMore (cells : Cells l1 l2) (sm : SmPtr) : Cells l1 (Function.update l2 a (some sm)) := by
  intro i inside
  refine (cells i inside).imp_right fun ⟨ent,node⟩ => ⟨ent,?_⟩
  by_cases same : (l1 i).base = a
  · rw [same,Function.update_self]
    exact nofun
  · rwa [Function.update_of_ne same]

end

theorem findsEnt (cells : Cells s.auxmapL1 s.auxmapL2) (high : maxPrimaryAddress < a) :
    Ends (maybeFindInAuxmap a) s (fun r t =>
      r = (s.auxmapL2 (a &&& ~~~0xFFFF)).map (fun _ => a &&& ~~~0xFFFF) ∧
      ∃ l1, t = { s with auxmapL1 := l1 } ∧ Cells l1 s.auxmapL2) := by
  have some_ := baseAbove high
  unfold maybeFindInAuxmap
  refine endsAssertBind high ?_
  refine endsGetBind ?_
  generalize a &&& ~~~0xFFFF = base at some_ ⊢
  have hit {i : Nat} (inside : i < nAuxmapL1) (found : (s.auxmapL1 i).base = base) :
      (s.auxmapL1 i).ent = (s.auxmapL2 base).map (fun _ => base) := by
    obtain ⟨ent,node⟩ := cellFound cells inside found some_
    obtain ⟨sm,there⟩ := Option.ne_none_iff_exists'.mp node
    rw [ent,there]
    rfl
  -- an entry that moves up is answered from its new place
  have moved {i : Nat} (inside : i + 1 < nAuxmapL1) (found : (s.auxmapL1 (i + 1)).base = base) :
      Ends (do
        modify (fun s => { s with auxmapL1 := swapUp (i + 1) s.auxmapL1 })
        let s ← get
        pure (s.auxmapL1 i).ent : Tool (Option Addr)) s (fun r t =>
          r = (s.auxmapL2 base).map (fun _ => base) ∧
          ∃ l1, t = { s with auxmapL1 := l1 } ∧ Cells l1 s.auxmapL2) := by
    have place : swapUp (i + 1) s.auxmapL1 i = s.auxmapL1 (i + 1) := by
      rw [swapUp,Function.update_of_ne (by omega)]
      exact Function.update_self ..
    refine ⟨_,_,rfl,?_,_,rfl,cellsSwap cells inside⟩
    show (swapUp (i + 1) s.auxmapL1 i).ent = _
    rw [place]
    exact hit inside found
  by_cases first : (s.auxmapL1 0).base = base
  · rw [if_pos first]
    exact endsPure ⟨hit (by decide) first,_,rfl,cells⟩
  · rw [if_neg first]
    by_cases second : (s.auxmapL1 1).base = base
    · rw [if_pos second]
      exact moved (by decide) second
    · rw [if_neg second]
      cases search : (List.range nAuxmapL1).find? (fun i => (s.auxmapL1 i).base = base) with
      | none =>
        cases node : s.auxmapL2 base with
        | none => exact endsPure ⟨rfl,_,rfl,cells⟩
        | some sm =>
          have there : s.auxmapL2 base ≠ none := by
            rw [node]
            exact nofun
          exact ⟨_,_,rfl,rfl,_,rfl,cellsInsert cells auxmapL1InsertIx there⟩
      | some i =>
        have found : (s.auxmapL1 i).base = base := by simpa using List.find?_some search
        have inside : i < nAuxmapL1 := List.mem_range.mp (List.mem_of_find?_eq_some search)
        cases i with
        | zero => exact absurd found first
        | succ i => exact moved inside found

theorem findsOrAllocs (cells : Cells s.auxmapL1 s.auxmapL2) (high : maxPrimaryAddress < a) :
    Ends (findOrAllocInAuxmap a) s (fun r t => r = (a &&& ~~~0xFFFF) ∧ ∃ l1, Cells l1 t.auxmapL2 ∧
      t = { s with
        auxmapL1 := l1
        auxmapL2 := Function.update s.auxmapL2 (a &&& ~~~0xFFFF)
          (some ((s.auxmapL2 (a &&& ~~~0xFFFF)).getD (.distinguished .noAccess))) }) := by
  unfold findOrAllocInAuxmap
  refine endsBind (findsEnt cells high) ?_
  rintro r t ⟨rfl,l1,rfl,kept⟩
  generalize a &&& ~~~0xFFFF = base
  cases node : s.auxmapL2 base with
  | some sm =>
    have same : Function.update s.auxmapL2 base (some sm) = s.auxmapL2 := by
      rw [← node,Function.update_eq_self]
    refine endsPure ⟨rfl,l1,kept,?_⟩
    rw [Option.getD_some,same]
  | none =>
    have there : Function.update s.auxmapL2 base (some (.distinguished .noAccess)) base ≠ none := by
      rw [Function.update_self]
      exact nofun
    exact ⟨_,_,rfl,rfl,_,cellsInsert (cellsMore kept _) auxmapL1InsertIx there,rfl⟩

theorem slotFound (maps : Maps s) : Ends (getSecmapPtr a) s (fun p t =>
    p = slotOf a ∧ Maps t ∧ Alike s t ∧ t.at_ p = some (secmap s a) ∧ ∀ b, secmap t b = secmap s b) := by
  unfold getSecmapPtr
  by_cases low : a ≤ maxPrimaryAddress
  · rw [if_pos low]
    have bound : (a >>> 16).toNat < nPrimaryMap := by
      rw [BitVec.toNat_ushiftRight,Nat.shiftRight_eq_div_pow]
      exact (lowNat a).mp low
    refine endsAssertBind bound ?_
    have slot : slotOf a = .primary (a >>> 16).toNat := if_pos low
    refine endsPure ⟨slot.symm,maps,alikeRefl s,?_,fun _ => rfl⟩
    rw [secmap,slot]
    rfl
  · rw [if_neg low]
    have slot : slotOf a = .aux (a &&& ~~~0xFFFF) := if_neg low
    refine endsBind (findsOrAllocs maps.cells (BitVec.not_le.mp low)) ?_
    rintro _ t ⟨rfl,l1,cells,made⟩
    -- what was missing in the tree was taken for the no-access map before
    have same (p : Slot) : (t.at_ p).getD (.distinguished .noAccess) =
        (s.at_ p).getD (.distinguished .noAccess) := by
      rw [made]
      cases p with
      | primary pmOff => rfl
      | aux base =>
        show (Function.update s.auxmapL2 _ _ base).getD _ = (s.auxmapL2 base).getD _
        by_cases here : base = a &&& ~~~0xFFFF
        · subst here
          rw [Function.update_self]
          rfl
        · rw [Function.update_of_ne here]
    have older {p : Slot} {n : Nat} (there : t.at_ p = some (.allocated n)) :
        s.at_ p = some (.allocated n) := by
      have both := same p
      rw [there] at both
      cases before : s.at_ p with
      | none => rw [before] at both; cases both
      | some sm => rw [before] at both; exact congrArg some both.symm
    have secmaps (b : Addr) : secmap t b = secmap s b := same (slotOf b)
    refine endsPure ⟨slot.symm,?_,?_,?_,secmaps⟩
    · refine ⟨?_,fun p n there => ?_,fun p q n first second => maps.alone p q n (older first) (older second),?_⟩
      · rw [made]
        exact maps.distinguished
      · rw [made]
        exact maps.issued p n (older there)
      · rw [made] at cells ⊢
        exact cells
    · refine ⟨fun b i => ?_,?_,?_,?_⟩
      · rw [chunk,chunk,secmaps,made]
        cases secmap s b <;> rfl
      all_goals rw [made]
    · rw [secmap,slot,made]
      exact Function.update_self ..

theorem derefs (maps : Maps s) {p : Slot} {sm : SmPtr} (there : s.at_ p = some sm) :
    Ends (deref p) s (fun r t => r = sm ∧ t = s) := by
  unfold deref
  refine endsGetBind ?_
  rw [there]
  cases sm with
  | distinguished d => exact endsPure ⟨rfl,rfl⟩
  | allocated n => exact endsAssertBind (maps.issued p n there).2 (endsPure ⟨rfl,rfl⟩)

theorem throughSlot {α : Type} (f : Slot → Tool α) :
    (if a ≤ maxPrimaryAddress then getSecmapLowPtr a >>= f else getSecmapHighPtr a >>= f) =
      getSecmapPtr a >>= f := by
  unfold getSecmapPtr
  split <;> rfl

theorem reads (maps : Maps s) : Ends (getSecmapForReading a) s (fun sm t =>
    sm = secmap t a ∧ t.at_ (slotOf a) = some sm ∧ Maps t ∧ Alike s t) := by
  show Ends (if a ≤ maxPrimaryAddress then getSecmapLowPtr a >>= deref else getSecmapHighPtr a >>= deref) s _
  rw [throughSlot]
  refine endsBind (slotFound maps) ?_
  rintro _ t ⟨rfl,kept,alike,there,same⟩
  refine endsMono (derefs kept there) ?_
  rintro _ _ ⟨rfl,rfl⟩
  exact ⟨(same a).symm,there,kept,alike⟩

theorem setSlots (u : ShadowMem) (p q : Slot) (sm : SmPtr) :
    (u.set p sm).at_ q = if q = p then some sm else u.at_ q := by
  cases p with
  | primary off => cases q with
    | primary other =>
      simp only [ShadowMem.set,ShadowMem.at_,Function.update_apply,Slot.primary.injEq]
      split <;> rfl
    | aux base => rfl
  | aux base => cases q with
    | primary other => rfl
    | aux other => simp only [ShadowMem.set,ShadowMem.at_,Function.update_apply,Slot.aux.injEq]

theorem setFields (u : ShadowMem) (p : Slot) (sm : SmPtr) : (u.set p sm).smDistinguished = u.smDistinguished ∧
    (u.set p sm).secMaps = u.secMaps ∧ (u.set p sm).issued = u.issued ∧ (u.set p sm).mapped = u.mapped ∧
    (u.set p sm).secVBitTable = u.secVBitTable ∧ (u.set p sm).secVBitLimit = u.secVBitLimit ∧
    (u.set p sm).growth = u.growth ∧ (u.set p sm).auxmapL1 = u.auxmapL1 := by
  cases p <;> exact ⟨rfl,rfl,rfl,rfl,rfl,rfl,rfl,rfl⟩

theorem setCells {u : ShadowMem} (cells : Cells u.auxmapL1 u.auxmapL2) (p : Slot) (sm : SmPtr) :
    Cells (u.set p sm).auxmapL1 (u.set p sm).auxmapL2 := by
  cases p with
  | primary off => exact cells
  | aux base => exact cellsMore cells sm

/- The state with a copy of a distinguished map in the slot of the address. -/
def copied (s : ShadowMem) (a : Addr) (d : Dsm) : ShadowMem :=
  { s with
    secMaps := Function.update s.secMaps s.issued (s.vabits8 (.distinguished d))
    issued := s.issued + 1
    mapped := Function.update s.mapped s.issued true }.set (slotOf a) (.allocated s.issued)

theorem copies (maps : Maps s) {d : Dsm} (there : s.at_ (slotOf a) = some (.distinguished d)) :
    (copied s a d).at_ (slotOf a) = some (.allocated s.issued) ∧ Maps (copied s a d) ∧ Alike s (copied s a d) := by
  unfold copied
  generalize made : ({ s with
    secMaps := Function.update s.secMaps s.issued (s.vabits8 (.distinguished d))
    issued := s.issued + 1
    mapped := Function.update s.mapped s.issued true } : ShadowMem) = u
  have slots (p : Slot) : (u.set (slotOf a) (.allocated s.issued)).at_ p =
      if p = slotOf a then some (.allocated s.issued) else s.at_ p := by
    rw [setSlots,← made]
    cases p <;> rfl
  have cells := setCells (u := u) (by rw [← made]; exact maps.cells) (slotOf a) (.allocated s.issued)
  obtain ⟨dist,secMaps,issued,mapped,table,limit,growth,_⟩ := setFields u (slotOf a) (.allocated s.issued)
  generalize u.set (slotOf a) (.allocated s.issued) = t
    at slots cells dist secMaps issued mapped table limit growth
  have older {p : Slot} {n : Nat} (apart : p ≠ slotOf a) (found : t.at_ p = some (.allocated n)) :
      s.at_ p = some (.allocated n) := by rwa [slots,if_neg apart] at found
  have fresh {p : Slot} {n : Nat} (apart : p ≠ slotOf a) (found : t.at_ p = some (.allocated n)) :
      n < s.issued ∧ s.mapped n = true := maps.issued p n (older apart found)
  refine ⟨by rw [slots,if_pos rfl],⟨?_,fun p n found => ?_,fun p q n first second => ?_,cells⟩,?_,?_,?_,?_⟩
  · rw [dist,← made]
    exact maps.distinguished
  · rw [issued,mapped,← made]
    show n < s.issued + 1 ∧ Function.update s.mapped s.issued true n = true
    by_cases here : p = slotOf a
    · rw [slots,if_pos here] at found
      cases found
      exact ⟨Nat.lt_succ_self _,Function.update_self ..⟩
    · obtain ⟨below,there⟩ := fresh here found
      rw [Function.update_of_ne (Nat.ne_of_lt below)]
      exact ⟨Nat.lt_succ_of_lt below,there⟩
  · by_cases left : p = slotOf a <;> by_cases right : q = slotOf a
    · rw [left,right]
    · rw [slots,if_pos left] at first
      cases first
      exact absurd (fresh right second).1 (lt_irrefl _)
    · rw [slots,if_pos right] at second
      cases second
      exact absurd (fresh left first).1 (lt_irrefl _)
    · exact maps.alone p q n (older left first) (older right second)
  · intro b i
    rw [chunk,chunk,secmap,slots]
    by_cases here : slotOf b = slotOf a
    · rw [if_pos here,secmap,here,there,Option.getD_some,Option.getD_some]
      show t.secMaps s.issued i = s.smDistinguished d i
      rw [secMaps,← made]
      exact congrFun (Function.update_self ..) i
    · rw [if_neg here,← secmap]
      cases sm : secmap s b with
      | distinguished e =>
        show t.smDistinguished e i = s.smDistinguished e i
        rw [dist,← made]
      | allocated n =>
        have below : n < s.issued := by
          rw [secmap] at sm
          cases found : s.at_ (slotOf b) with
          | none => rw [found] at sm; cases sm
          | some other =>
            rw [found] at sm
            exact (maps.issued _ n (found.trans (congrArg some sm))).1
        show t.secMaps n i = s.secMaps n i
        rw [secMaps,← made]
        exact congrFun (Function.update_of_ne (Nat.ne_of_lt below) ..) i
  · rw [table,← made]
  · rw [limit,← made]
  · rw [growth,← made]

theorem writes (maps : Maps s) : Ends (getSecmapForWriting a) s (fun sm t =>
    (∃ n, sm = .allocated n) ∧ t.at_ (slotOf a) = some sm ∧ Maps t ∧ Alike s t) := by
  show Ends (if a ≤ maxPrimaryAddress then getSecmapLowPtr a >>= writable
    else getSecmapHighPtr a >>= writable) s _
  rw [throughSlot]
  refine endsBind (slotFound maps) ?_
  rintro _ t ⟨rfl,kept,alike,there,_⟩
  unfold writable
  refine endsBind (derefs kept there) ?_
  rintro _ _ ⟨rfl,rfl⟩
  cases sm : secmap s a with
  | allocated n => exact endsPure ⟨⟨n,rfl⟩,by rw [there,sm],kept,alike⟩
  | distinguished d =>
    obtain ⟨slot,maps,more⟩ := copies kept (there.trans (congrArg some sm))
    exact ⟨_,_,rfl,⟨_,rfl⟩,slot,maps,alikeTrans alike more⟩

section
variable {n : Nat} {off : Nat} {v : UChar}

theorem putMaps (maps : Maps s) : Maps (s.put (.allocated n) off v) where
  distinguished := maps.distinguished
  issued p m there := maps.issued p m (by cases p <;> exact there)
  alone p q m first second := maps.alone p q m (by cases p <;> exact first) (by cases q <;> exact second)
  cells := maps.cells

theorem putChunk (maps : Maps s) (there : s.at_ (slotOf a) = some (.allocated n)) (b : Addr) (i : Nat) :
    chunk (s.put (.allocated n) off v) b i =
      if slotOf b = slotOf a ∧ i = off then v else chunk s b i := by
  have same : secmap (s.put (.allocated n) off v) b = secmap s b := by
    rw [secmap,secmap]
    cases slotOf b <;> rfl
  rw [chunk,chunk,same]
  by_cases here : slotOf b = slotOf a
  · have sm : secmap s b = .allocated n := by rw [secmap,here,there,Option.getD_some]
    rw [sm]
    show Function.update s.secMaps n (Function.update (s.secMaps n) off v) n i = _
    rw [Function.update_self,Function.update_apply]
    simp only [here,true_and]
    rfl
  · rw [if_neg fun both => here both.1]
    cases sm : secmap s b with
    | distinguished d => rfl
    | allocated m =>
      have apart : m ≠ n := by
        rintro rfl
        rw [secmap] at sm
        cases found : s.at_ (slotOf b) with
        | none => rw [found] at sm; cases sm
        | some other =>
          rw [found] at sm
          exact here (maps.alone _ _ m (found.trans (congrArg some sm)) there)
      show Function.update s.secMaps n _ m i = s.secMaps m i
      rw [Function.update_of_ne apart]

end

structure Shows (s : ShadowMem) (f : Addr → UChar) (t : ShadowMem) : Prop where
  maps : Maps t
  bits : va2 t = f
  table : t.secVBitTable = s.secVBitTable
  limit : t.secVBitLimit = s.secVBitLimit
  growth : t.growth = s.growth

theorem alikeShows {t : ShadowMem} (maps : Maps t) (alike : Alike s t) : Shows s (va2 s) t :=
  ⟨maps,alikeVa2 alike,alike.table,alike.limit,alike.growth⟩

theorem getsVa2 (maps : Maps s) (a : Addr) :
    Ends (getVabits2 a) s (fun r t => r = va2 s a ∧ Shows s (va2 s) t) := by
  unfold getVabits2
  refine endsBind (reads (a := a) maps) ?_
  rintro _ t ⟨rfl,_,kept,alike⟩
  refine endsGetBind ?_
  exact endsPure ⟨congrFun (alikeVa2 alike) a,alikeShows kept alike⟩

theorem putVa2 (maps : Maps s) {n : Nat} (there : s.at_ (slotOf a) = some (.allocated n)) {v : UChar}
    (small : v < 4) : va2 (s.put (.allocated n) (smOff a)
      (insertVabits2IntoVabits8 a v (s.vabits8 (.allocated n) (smOff a)))) = Function.update (va2 s) a v := by
  funext b
  have own : s.vabits8 (.allocated n) (smOff a) = chunk s a (smOff a) := by
    rw [chunk,secmap,there,Option.getD_some]
  rw [va2,putChunk maps there,own,Function.update_apply]
  by_cases word : slotOf b = slotOf a ∧ smOff b = smOff a
  · rw [if_pos word,extractInsert a b small]
    by_cases lane : a.toNat % 4 = b.toNat % 4
    · rw [if_pos lane,if_pos (addrSame.mp ⟨word,lane⟩)]
    · rw [if_neg lane,if_neg fun same => lane (by rw [same]),va2,chunk,chunk,secmap,secmap,word.1,word.2]
  · rw [if_neg word,if_neg fun same => word (by rw [same]; exact ⟨rfl,rfl⟩)]
    rfl

theorem setsVa2 (maps : Maps s) (a : Addr) {v : UChar} (small : v < 4) :
    Ends (setVabits2 a v) s (fun _ t => Shows s (Function.update (va2 s) a v) t) := by
  unfold setVabits2
  refine endsBind (writes (a := a) maps) ?_
  rintro _ t ⟨⟨n,rfl⟩,there,kept,alike⟩
  refine endsModify ⟨putMaps kept,?_,alike.table,alike.limit,alike.growth⟩
  rw [putVa2 kept there small,alikeVa2 alike]

end

end Autonomizer.SecMaps
