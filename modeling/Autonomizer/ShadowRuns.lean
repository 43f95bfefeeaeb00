import Mathlib
import Autonomizer.Copies
import Autonomizer.Ranges

/-! The shadow memory over any run of what generated code, the core and the client ask of it:
a flat map from addresses to bytes of taint, whatever is shared, cached, collected or given
back behind it. -/
namespace Autonomizer.ShadowRuns
open AddressRange Copies Handlers LoadStore Ranges SecMaps ShadowMemory Spans Total VBits Words

inductive Event where
  | loadV8 (a : Addr)
  | loadV16 (a : Addr) (bigendian : Bool)
  | loadV32 (a : Addr) (bigendian : Bool)
  | loadV64 (a : Addr) (bigendian : Bool)
  | loadV128 (a : Addr) (bigendian : Bool)
  | loadV256 (a : Addr) (bigendian : Bool)
  | storeV8 (a : Addr) (vbits8 : ULong)
  | storeV16 (a : Addr) (vbits16 : ULong) (bigendian : Bool)
  | storeV32 (a : Addr) (vbits32 : ULong) (bigendian : Bool)
  | storeV64 (a : Addr) (vbits64 : ULong) (bigendian : Bool)
  | makeMemNoaccess (a : Addr) (len : SizeT)
  | makeMemTainted (a : Addr) (len : SizeT)
  | makeMemUntainted (a : Addr) (len : SizeT)
  | copyAddressRangeState (src dst : Addr) (len : SizeT)
  deriving DecidableEq

/- The bytes of an answer. What a handler leaves above them is not looked at. -/
def bytesOf (r : ULong) (szB : Nat) : List UChar := (List.range szB).map (byteAt r)

def vectorBytes (r : Nat → ULong) (szL : Nat) : List UChar := (List.range szL).flatMap (fun j => bytesOf (r j) 8)

def step : Event → Tool (List UChar)
  | .loadV8 a => do
    let r ← loadV8 a
    pure (bytesOf r 1)
  | .loadV16 a bigendian => do
    let r ← loadV16 a bigendian
    pure (bytesOf r 2)
  | .loadV32 a bigendian => do
    let r ← loadV32 a bigendian
    pure (bytesOf r 4)
  | .loadV64 a bigendian => do
    let r ← loadV64 a bigendian
    pure (bytesOf r 8)
  | .loadV128 a bigendian => do
    let r ← loadV128Or256 (fun _ => 0) a 128 bigendian
    pure (vectorBytes r 2)
  | .loadV256 a bigendian => do
    let r ← loadV128Or256 (fun _ => 0) a 256 bigendian
    pure (vectorBytes r 4)
  | .storeV8 a v => do
    storeV8 a v
    pure []
  | .storeV16 a v bigendian => do
    storeV16 a v bigendian
    pure []
  | .storeV32 a v bigendian => do
    storeV32 a v bigendian
    pure []
  | .storeV64 a v bigendian => do
    storeV64 a v bigendian
    pure []
  | .makeMemNoaccess a len => do
    makeMemNoaccess a len
    pure []
  | .makeMemTainted a len => do
    makeMemTainted a len
    pure []
  | .makeMemUntainted a len => do
    makeMemUntainted a len
    pure []
  | .copyAddressRangeState src dst len => do
    copyAddressRangeState src dst len
    pure []

abbrev Flat := Addr → UChar

def word (f : Flat) (a : Addr) (szB : Nat) (bigendian : Bool) : List UChar :=
  (List.range szB).map (fun i => f (a + BitVec.ofNat 64 (byteOffsetW szB bigendian i)))

def longs (f : Flat) (a : Addr) (szL : Nat) (bigendian : Bool) : List UChar :=
  (List.range szL).flatMap (fun j => word f (a + 8 * BitVec.ofNat 64 j) 8 bigendian)

/- What the events mean: one byte of taint for each address, and nothing else. -/
def flat : Event → Flat → List UChar × Flat
  | .loadV8 a,f => (word f a 1 false,f)
  | .loadV16 a bigendian,f => (word f a 2 bigendian,f)
  | .loadV32 a bigendian,f => (word f a 4 bigendian,f)
  | .loadV64 a bigendian,f => (word f a 8 bigendian,f)
  | .loadV128 a bigendian,f => (longs f a 2 bigendian,f)
  | .loadV256 a bigendian,f => (longs f a 4 bigendian,f)
  | .storeV8 a v,f => ([],stored f a 1 false v)
  | .storeV16 a v bigendian,f => ([],stored f a 2 bigendian v)
  | .storeV32 a v bigendian,f => ([],stored f a 4 bigendian v)
  | .storeV64 a v bigendian,f => ([],stored f a 8 bigendian v)
  | .makeMemNoaccess a len,f => ([],overwrite f a len.toNat (fun _ => vBits8Untainted))
  | .makeMemTainted a len,f => ([],overwrite f a len.toNat (fun _ => vBits8Tainted))
  | .makeMemUntainted a len,f => ([],overwrite f a len.toNat (fun _ => vBits8Untainted))
  | .copyAddressRangeState src dst len,f => ([],moved f src dst len.toNat)

def Fits : Event → Prop
  | .copyAddressRangeState src dst len =>
    src.toNat + len.toNat < 2 ^ 64 ∧ dst.toNat + len.toNat < 2 ^ 64
  | _ => True

theorem wordRead {f : Flat} {a : Addr} {szB : Nat} {bigendian : Bool} {r : ULong}
    (loaded : Loaded f a szB bigendian r) : bytesOf r szB = word f a szB bigendian :=
  List.map_congr_left fun i inside => loaded i (List.mem_range.mp inside)

theorem longsRead {f : Flat} {a : Addr} {szL : Nat} {bigendian : Bool} {res r : Nat → ULong}
    (loaded : VectorLoaded f a szL bigendian res r) : vectorBytes r szL = longs f a szL bigendian := by
  unfold vectorBytes longs
  rw [List.flatMap_congr fun j inside => wordRead (loaded.1 j (List.mem_range.mp inside))]

section
variable {f : Flat} {s : ShadowMem}

theorem answers {p : Tool ULong} {a : Addr} {szB : Nat} {bigendian : Bool} (loads : Loads p f a szB bigendian)
    (taints : Taints f s) : Ends (p >>= fun r => pure (bytesOf r szB)) s
      (fun r t => r = word f a szB bigendian ∧ Taints f t) :=
  endsBind (loads s taints) fun _ _ ⟨after,loaded⟩ => endsPure ⟨wordRead loaded,after⟩

theorem answersLongs {a : Addr} {bigendian : Bool} {nBits : Nat} (size : nBits = 128 ∨ nBits = 256)
    (taints : Taints f s) : Ends (loadV128Or256 (fun _ => 0) a nBits bigendian >>= fun r =>
        pure (vectorBytes r (nBits / 8 / 8))) s
      (fun r t => r = longs f a (nBits / 8 / 8) bigendian ∧ Taints f t) :=
  endsBind (loadsVector taints _ size) fun _ _ ⟨after,loaded⟩ => endsPure ⟨longsRead loaded,after⟩

theorem silent {p : Tool Unit} {g : Flat} (writes : Ends p s (fun _ t => Taints g t)) :
    Ends (p >>= fun _ => pure ([] : List UChar)) s (fun r t => r = [] ∧ Taints g t) :=
  endsBind writes fun _ _ after => endsPure ⟨rfl,after⟩

theorem stepRefines (e : Event) (f : Flat) (s : ShadowMem) (fits : Fits e) (taints : Taints f s) :
    Ends (step e) s (fun r t => r = (flat e f).1 ∧ Taints (flat e f).2 t) := by
  cases e with
  | loadV8 a => exact answers loads8 taints
  | loadV16 a bigendian => exact answers loads16 taints
  | loadV32 a bigendian => exact answers loads32 taints
  | loadV64 a bigendian => exact answers loads64 taints
  | loadV128 a bigendian => exact answersLongs (.inl rfl) taints
  | loadV256 a bigendian => exact answersLongs (.inr rfl) taints
  | storeV8 a v => exact silent (stores8 s taints)
  | storeV16 a v bigendian => exact silent (stores16 s taints)
  | storeV32 a v bigendian => exact silent (stores32 s taints)
  | storeV64 a v bigendian => exact silent (stores64 s taints)
  | makeMemNoaccess a len => exact silent (paintsTaints (d := .noAccess) taints a len)
  | makeMemTainted a len => exact silent (paintsTaints (d := .tainted) taints a len)
  | makeMemUntainted a len => exact silent (paintsTaints (d := .untainted) taints a len)
  | copyAddressRangeState src dst len => exact silent (copies taints fits.1 fits.2)

end

/- Nothing is tainted at first: a low address has the untainted map, and a high one no map. -/
theorem startTaints (growth : Int → Nat → Int) : Taints (fun _ => vBits8Untainted) (initShadowMemory growth) := by
  have maps : Maps (initShadowMemory growth) := by
    refine ⟨fun _ _ => rfl,fun p n there => ?_,fun p q n there => ?_,fun i _ => .inl rfl⟩ <;>
      cases p <;> cases there
  have secmaps (a : Addr) : secmap (initShadowMemory growth) a = .distinguished .untainted ∨
      secmap (initShadowMemory growth) a = .distinguished .noAccess := by
    rw [secmap]
    cases slotOf a with
    | primary off => exact .inl rfl
    | aux base => exact .inr rfl
  have kinds (a : Addr) : va2 (initShadowMemory growth) a = vaBits2Untainted ∨
      va2 (initShadowMemory growth) a = vaBits2NoAccess := by
    rcases secmaps a with map | map
    · refine .inl ?_
      rw [va2,chunk,map]
      exact laneFull .untainted a
    · refine .inr ?_
      rw [va2,chunk,map]
      exact laneFull .noAccess a
  refine ⟨⟨maps,fun a part _ => ?_⟩,?_⟩
  · rcases kinds a with kind | kind <;> rw [kind] at part <;> cases part
  · funext a
    rw [vbits]
    rcases kinds a with kind | kind <;> rw [kind] <;> rfl

/- Every run from the start passes all its assertions, answers what the flat map does and
leaves its taint. -/
theorem runsFlat (growth : Int → Nat → Int) (events : List Event) (fits : ∀ e ∈ events, Fits e) :
    Ends (runAll step events) (initShadowMemory growth) (fun answers t =>
      answers = (runFlat flat events fun _ => vBits8Untainted).1 ∧
      vbits t = (runFlat flat events fun _ => vBits8Untainted).2) :=
  endsMono (refines stepRefines fits (startTaints growth)) fun _ _ ⟨same,taints⟩ => ⟨same,taints.taint⟩

/- Two ranges, a copy that overlaps its source, and what is read of it: the second byte of the
long word is tainted in part. -/
def few : List Event :=
  [.makeMemTainted 0x10000 6,.storeV8 0x10001 0x0F,.copyAddressRangeState 0x10000 0x10002 6,
    .makeMemUntainted 0x10006 0x30000,.loadV64 0x10000 false,.loadV32 0x10002 true]

theorem fewFits : ∀ e ∈ few, Fits e := by
  intro e inside
  fin_cases inside
  case «2» => exact ⟨by decide,by decide⟩
  all_goals trivial

theorem runsFlatFew : Ends (runAll step few) (initShadowMemory fun limit _ => limit) (fun answers _ =>
    answers = [[],[],[],[],[0xFF,0x0F,0xFF,0x0F,0xFF,0xFF,0,0],[0xFF,0xFF,0x0F,0xFF]]) := by
  have answers : (runFlat flat few fun _ => vBits8Untainted).1 =
      [[],[],[],[],[0xFF,0x0F,0xFF,0x0F,0xFF,0xFF,0,0],[0xFF,0xFF,0x0F,0xFF]] := by decide
  exact endsMono (runsFlat (fun limit _ => limit) few fewFits) fun _ _ ⟨same,_⟩ => same.trans answers

section
variable (growth : Int → Nat → Int) (events : List Event)

theorem runsTaints (fits : ∀ e ∈ events, Fits e) : Ends (runAll step events) (initShadowMemory growth)
    (fun _ t => Taints (runFlat flat events fun _ => vBits8Untainted).2 t) :=
  endsMono (refines stepRefines fits (startTaints growth)) fun _ _ ⟨_,taints⟩ => taints

/- No run writes to a distinguished map, has one map in two slots or keeps in a slot what it
has given back. -/
theorem runsShared (fits : ∀ e ∈ events, Fits e) : Ends (runAll step events) (initShadowMemory growth)
    (fun _ t => t.smDistinguished = (initShadowMemory growth).smDistinguished ∧
      (∀ p q n, t.at_ p = some (.allocated n) → t.at_ q = some (.allocated n) → p = q) ∧
      ∀ p n, t.at_ p = some (.allocated n) → n < t.issued ∧ t.mapped n = true) := by
  refine endsMono (runsTaints growth events fits) fun _ t taints => ?_
  obtain ⟨distinguished,issued,alone,_⟩ := taints.sound.maps
  exact ⟨funext fun d => funext (distinguished d),alone,issued⟩

theorem runsSharedFew : Ends (runAll step few) (initShadowMemory fun limit _ => limit) (fun _ t =>
    ∀ p q n, t.at_ p = some (.allocated n) → t.at_ q = some (.allocated n) → p = q) :=
  endsMono (runsShared (fun limit _ => limit) few fewFits) fun _ _ ⟨_,alone,_⟩ => alone

/- The garbage collection may run wherever a run has come to: it keeps the nodes with a byte
in use, only these, and the taint. -/
theorem runsCollect (fits : ∀ e ∈ events, Fits e) : Ends (runAll step events) (initShadowMemory growth)
    (fun _ s => Ends gcSecVBitTable s (fun _ t => vbits t = vbits s ∧
      ∀ n, n ∈ t.secVBitTable ↔ n ∈ s.secVBitTable ∧ ∃ i < bytesPerSecVBitNode,
        va2 s (n.a + BitVec.ofNat 64 i) = vaBits2PartUntainted)) := by
  refine endsMono (runsTaints growth events fits) fun _ s taints => ?_
  refine endsMono (collects taints.sound.maps) ?_
  intro _ t ⟨_,bits,table⟩
  refine ⟨?_,fun n => ?_⟩
  · funext a
    rw [vbits,vbits,bits,table]
    rcases va2Cases s a with part | plain
    · rw [secFilter part]
    · exact plain _ _
  · rw [table,List.mem_filter,decide_eq_true_eq]
    rfl

theorem runsCollectFew : Ends (runAll step few) (initShadowMemory fun limit _ => limit) (fun _ s =>
    Ends gcSecVBitTable s (fun _ t => vbits t = vbits s)) :=
  endsMono (runsCollect (fun limit _ => limit) few fewFits) fun _ _ ends => endsMono ends fun _ _ ⟨same,_⟩ => same

inductive Width where
  | w8
  | w16
  | w32
  | w64
  deriving DecidableEq, Repr

def Width.bits : Width → Nat
  | .w8 => 8
  | .w16 => 16
  | .w32 => 32
  | .w64 => 64

def loadV : Width → Addr → Bool → Tool ULong
  | .w8,a,_ => loadV8 a
  | .w16,a,bigendian => loadV16 a bigendian
  | .w32,a,bigendian => loadV32 a bigendian
  | .w64,a,bigendian => loadV64 a bigendian

def storeV : Width → Addr → ULong → Bool → Tool Unit
  | .w8,a,v,_ => storeV8 a v
  | .w16,a,v,bigendian => storeV16 a v bigendian
  | .w32,a,v,bigendian => storeV32 a v bigendian
  | .w64,a,v,bigendian => storeV64 a v bigendian

theorem widthSize (w : Width) : w.bits = 64 ∨ w.bits = 32 ∨ w.bits = 16 ∨ w.bits = 8 := by
  cases w <;> decide

theorem oneOffset (bigendian : Bool) {i : Nat} (inside : i < 1) :
    byteOffsetW 1 bigendian i = byteOffsetW 1 false i := by
  cases bigendian
  · rfl
  · show 1 - 1 - i = i
    omega

theorem loadsWidth (w : Width) (f : Flat) (a : Addr) (bigendian : Bool) :
    Loads (loadV w a bigendian) f a (w.bits / 8) bigendian := by
  cases w with
  | w8 =>
    intro s taints
    refine endsMono (loads8 s taints) fun r t ⟨after,loaded⟩ => ⟨after,fun i inside => ?_⟩
    rw [loaded i inside]
    exact congrArg (fun k => f (a + BitVec.ofNat 64 k)) (oneOffset bigendian inside).symm
  | w16 => exact loads16
  | w32 => exact loads32
  | w64 => exact loads64

theorem storesWidth (w : Width) (f : Flat) (a : Addr) (v : ULong) (bigendian : Bool) :
    Stores (storeV w a v bigendian) f a (w.bits / 8) bigendian v := by
  cases w with
  | w8 =>
    have same : stored f a 1 bigendian v = stored f a 1 false v :=
      overwriteSame fun i inside => congrArg (byteAt v) (oneOffset bigendian inside)
    show Stores (storeV8 a v) f a 1 bigendian v
    rw [Stores,same]
    exact stores8
  | w16 => exact stores16
  | w32 => exact stores32
  | w64 => exact stores64

/- Wherever a run has come to, the handler with the fast cases and the one that goes byte by
byte read the same bytes and leave the same taint. -/
theorem runsFast (fits : ∀ e ∈ events, Fits e) : Ends (runAll step events) (initShadowMemory growth)
    (fun _ s => ∀ w a bigendian,
      Ends (loadV w a bigendian) s (fun r t => Ends (loadVnSlow a w.bits bigendian) s (fun q u =>
        bytesOf r (w.bits / 8) = bytesOf q (w.bits / 8) ∧ vbits t = vbits s ∧ vbits u = vbits s)) ∧
      ∀ v, Ends (storeV w a v bigendian) s (fun _ t =>
        Ends (storeVnSlow a w.bits v bigendian) s (fun _ u => vbits t = vbits u))) := by
  refine endsMono (runsTaints growth events fits) fun _ s taints w a bigendian => ⟨?_,fun v => ?_⟩
  · refine endsMono (loadsWidth w _ a bigendian s taints) fun r t ⟨fast,loaded⟩ => ?_
    refine endsMono (loadsSlow (widthSize w) s taints) fun q u ⟨slow,same⟩ => ?_
    rw [wordRead loaded,wordRead same,fast.taint,slow.taint,taints.taint]
    exact ⟨rfl,rfl,rfl⟩
  · refine endsMono (storesWidth w _ a v bigendian s taints) fun _ t fast => ?_
    refine endsMono (storesSlow (widthSize w) s taints) fun _ u slow => ?_
    rw [fast.taint,slow.taint]

theorem runsFastFew : Ends (runAll step few) (initShadowMemory fun limit _ => limit) (fun _ s =>
    Ends (storeV .w16 0x10003 0x12FF true) s (fun _ t =>
      Ends (storeVnSlow 0x10003 16 0x12FF true) s (fun _ u => vbits t = vbits u))) :=
  endsMono (runsFast (fun limit _ => limit) few fewFits) fun _ _ both => (both .w16 0x10003 true).2 0x12FF

/- The three parts of set_address_range_perms, and its loop over all bytes. -/
theorem runsDebug (fits : ∀ e ∈ events, Fits e) : Ends (runAll step events) (initShadowMemory growth)
    (fun _ s => ∀ d a lenT, Ends (setAddressRangePerms a lenT (vaBits16 d) d) s (fun _ t =>
      Ends (setAddressRangePermsDebug a lenT (vaBits16 d)) s (fun _ u => va2 t = va2 u ∧ vbits t = vbits u))) := by
  refine endsMono (runsTaints growth events fits) fun _ s taints d a lenT => ?_
  refine endsMono (paints taints.sound.maps a lenT) fun _ t quick => ?_
  refine endsMono (paintsDebug taints.sound.maps a lenT) fun _ u each => ⟨?_,?_⟩
  · rw [quick.bits,each.bits]
  · rw [(paintedTaints taints quick).taint,(paintedTaints taints each).taint]

theorem runsDebugFew : Ends (runAll step few) (initShadowMemory fun limit _ => limit) (fun _ s =>
    Ends (setAddressRangePerms 0x1FFFD 0x20007 vaBits16Tainted .tainted) s (fun _ t =>
      Ends (setAddressRangePermsDebug 0x1FFFD 0x20007 vaBits16Tainted) s (fun _ u => vbits t = vbits u))) := by
  refine endsMono (runsDebug (fun limit _ => limit) few fewFits) fun _ _ both => ?_
  exact endsMono (both .tainted 0x1FFFD 0x20007) fun _ _ each => endsMono each fun _ _ ⟨_,same⟩ => same

end

end Autonomizer.ShadowRuns
