import Mathlib
import Autonomizer.Added
import Autonomizer.EmitInsn

/-! The instrumented program and the program itself: whatever blocks are run, and however far,
the tool fails an assertion, or both are at the same place with the same memory and the same
state of the guest. -/
namespace Autonomizer.Transparent
open Added Bits EmitInsn Instrument LoadStore ShadowMemory ShadowRuns Total Translate VBits VexIR Weaving

def AtomInside (b : Bounds) : IRAtom → Prop
  | .rdTmp t => t < b.temps
  | .const _ => True

def ExprInside (b : Bounds) : IRExpr → Prop
  | .atom a => AtomInside b a
  | .get offset ty => offset + sizeofIRType ty ≤ b.state
  | .getI descr ix _ => 0 < descr.nElems ∧ descr.base + descr.nElems * sizeofIRType descr.elemTy ≤ b.state ∧
      AtomInside b ix
  | .unop _ arg => AtomInside b arg
  | .binop _ arg1 arg2 => AtomInside b arg1 ∧ AtomInside b arg2
  | .triop _ arg1 arg2 arg3 => AtomInside b arg1 ∧ AtomInside b arg2 ∧ AtomInside b arg3
  | .load _ _ addr => AtomInside b addr
  | .ccall _ _ args => ∀ a ∈ args, AtomInside b a
  | .ite cond iftrue iffalse => AtomInside b cond ∧ AtomInside b iftrue ∧ AtomInside b iffalse

def StmtInside (b : Bounds) : IRStmt Empty → Prop
  | .noOp | .iMark _ _ | .abiHint _ _ _ | .mbe | .dirty _ => True
  | .put _ data => AtomInside b data
  | .putI _ ix _ data => AtomInside b ix ∧ AtomInside b data
  | .wrTmp _ data => ExprInside b data
  | .store _ addr data => AtomInside b addr ∧ AtomInside b data
  | .storeG sg => AtomInside b sg.guard ∧ AtomInside b sg.addr ∧ AtomInside b sg.data
  | .loadG lg => AtomInside b lg.guard ∧ AtomInside b lg.addr ∧ AtomInside b lg.alt
  | .cas cas => AtomInside b cas.addr ∧ AtomInside b cas.expdLo ∧ AtomInside b cas.dataLo ∧
      ∀ hi ∈ cas.hi, AtomInside b hi.expd ∧ AtomInside b hi.data
  | .exit guard _ => AtomInside b guard

structure Inside (layout : Layout) (sb : IRSB Empty) : Prop where
  stmts : ∀ st ∈ sb.stmts, StmtInside (boundsOf layout sb) st
  next : AtomInside (boundsOf layout sb) sb.next

section
variable {σ τ : Type}

/- What the program sees: the memory, and the state below its shadow. -/
structure SeenAlike (total : Nat) (w : World σ) (w' : World τ) : Prop where
  mem : w'.mem = w.mem
  state : ∀ k < total, w'.state k = w.state k

/- The machine of a block and that of the instrumented one, whose shadow memory is sound. -/
structure Agrees (Kept : τ → Prop) (b : Bounds) (s : Machine σ) (t : Machine τ) : Prop where
  tmp : ∀ u < b.temps, t.tmp u = s.tmp u
  world : SeenAlike b.state s.world t.world
  kept : Kept t.world.shadow

variable {Kept : τ → Prop} {b : Bounds} {s : Machine σ} {t : Machine τ}

theorem atomAgrees (agrees : Agrees Kept b s t) {a : IRAtom} (inside : AtomInside b a) :
    evalAtom t.tmp a = evalAtom s.tmp a := by
  cases a with
  | rdTmp u => exact agrees.tmp u inside
  | const con => rfl

theorem stateAgrees (agrees : Agrees Kept b s t) {offset n : Nat} (inside : offset + n ≤ b.state) :
    readState t.world.state offset n = readState s.world.state offset n := by
  refine congrArg fromBytes (List.map_congr_left fun i within => agrees.world.state _ ?_)
  have below := List.mem_range.mp within
  omega

theorem offsetInside {descr : IRRegArray} (some_ : 0 < descr.nElems) (ix : Value) (bias : Int) :
    arrayOffset descr ix bias + sizeofIRType descr.elemTy ≤
      descr.base + descr.nElems * sizeofIRType descr.elemTy := by
  have positive : (0 : Int) < descr.nElems := Int.natCast_pos.mpr some_
  have below : ((((cut 32 ix).toNat : Int) + bias) % (descr.nElems : Int)).toNat + 1 ≤ descr.nElems := by
    have less := Int.emod_lt_of_pos (((cut 32 ix).toNat : Int) + bias) positive
    have least := Int.emod_nonneg (((cut 32 ix).toNat : Int) + bias) positive.ne'
    omega
  have times := Nat.mul_le_mul_right (sizeofIRType descr.elemTy) below
  rw [Nat.add_mul,Nat.one_mul] at times
  unfold arrayOffset
  omega

theorem evalAgrees (prims : Prims) (agrees : Agrees Kept b s t) {e : IRExpr} (inside : ExprInside b e) :
    eval prims t e = eval prims s e := by
  cases e with
  | atom a => exact atomAgrees agrees inside
  | get offset ty =>
    rw [eval,eval]
    rw [stateAgrees agrees inside]
  | getI descr ix bias =>
    obtain ⟨some_,fits,ixInside⟩ := inside
    rw [eval,eval]
    rw [atomAgrees agrees ixInside,stateAgrees agrees ((offsetInside some_ _ bias).trans fits)]
  | unop op arg =>
    rw [eval,eval]
    rw [atomAgrees agrees inside]
  | binop op arg1 arg2 =>
    rw [eval,eval]
    rw [atomAgrees agrees inside.1,atomAgrees agrees inside.2]
  | triop op arg1 arg2 arg3 =>
    rw [eval,eval]
    rw [atomAgrees agrees inside.1,atomAgrees agrees inside.2.1,atomAgrees agrees inside.2.2]
  | load endness ty addr =>
    rw [eval,eval]
    rw [atomAgrees agrees inside,agrees.world.mem]
  | ccall cee retty args =>
    have same : (args.map fun a => cut (evalAtom t.tmp a).ty.bits (evalAtom t.tmp a).bits) =
        args.map fun a => cut (evalAtom s.tmp a).ty.bits (evalAtom s.tmp a).bits := by
      refine List.map_congr_left fun a among => ?_
      rw [atomAgrees agrees (inside a among)]
    rw [eval,eval]
    rw [same]
  | ite cond iftrue iffalse =>
    rw [eval,eval]
    rw [atomAgrees agrees inside.1,atomAgrees agrees inside.2.1,atomAgrees agrees inside.2.2]

theorem setAgrees (agrees : Agrees Kept b s t) (u : IRTemp) (v : Val) : Agrees Kept b (s.set u v) (t.set u v) := by
  refine ⟨fun k below => ?_,agrees.world,agrees.kept⟩
  show Function.update t.tmp u v k = Function.update s.tmp u v k
  rw [Function.update_apply,Function.update_apply,agrees.tmp k below]

theorem putsAgrees (agrees : Agrees Kept b s t) (offset : Nat) (v : Val) : Agrees Kept b (s.puts offset v) (t.puts offset v) := by
  refine ⟨agrees.tmp,⟨agrees.world.mem,fun k below => ?_⟩,agrees.kept⟩
  show writeState t.world.state _ _ _ k = writeState s.world.state _ _ _ k
  unfold writeState
  rw [agrees.world.state k below]

theorem writesAgrees (agrees : Agrees Kept b s t) (endness : IREndness) (a : Addr) (v : Val) :
    Agrees Kept b (s.writes endness a v) (t.writes endness a v) := by
  refine ⟨agrees.tmp,⟨?_,agrees.world.state⟩,agrees.kept⟩
  show writeMem t.world.mem _ _ _ _ = writeMem s.world.mem _ _ _ _
  rw [agrees.world.mem]

theorem iteAgrees {s' : Machine σ} {t' : Machine τ} {P : Prop} [Decidable P] (yes : Agrees Kept b s t)
    (no : Agrees Kept b s' t') : Agrees Kept b (if P then s else s') (if P then t else t') := by
  split
  · exact yes
  · exact no

theorem setApart (agrees : Agrees Kept b s t) {u : IRTemp} (new : b.temps ≤ u) (v : Val) : Agrees Kept b s (t.set u v) := by
  refine ⟨fun k below => ?_,agrees.world,agrees.kept⟩
  have other : k ≠ u := (Nat.lt_of_lt_of_le below new).ne
  show Function.update t.tmp u v k = s.tmp k
  rw [Function.update_of_ne other,agrees.tmp k below]

theorem putsApart (agrees : Agrees Kept b s t) {offset : Nat} (above : b.state ≤ offset) (v : Val) :
    Agrees Kept b s (t.puts offset v) := by
  refine ⟨agrees.tmp,⟨agrees.world.mem,fun k below => ?_⟩,agrees.kept⟩
  show writeState t.world.state _ _ _ k = s.world.state k
  unfold writeState
  rw [if_neg (by omega),agrees.world.state k below]

theorem setTmpApart (agrees : Agrees Kept b s t) {u : Option IRTemp} (new : ∀ k ∈ u, b.temps ≤ k) (v : Val) :
    Agrees Kept b s (setTmp t u v) := by
  cases u with
  | none => exact agrees
  | some k => exact setApart agrees (new k rfl) v

theorem casAgrees (agrees : Agrees Kept b s t) {cas : IRCAS} (inside : StmtInside b (.cas cas)) :
    Agrees Kept b (doCAS s cas) (doCAS t cas) := by
  obtain ⟨addr,expd,data,his⟩ := inside
  unfold doCAS
  rw [atomAgrees agrees addr,atomAgrees agrees expd,atomAgrees agrees data,agrees.world.mem]
  cases upper : cas.hi with
  | none =>
    have set := setAgrees agrees cas.oldLo ⟨(evalAtom s.tmp cas.expdLo).ty,readMem s.world.mem
      (addrOf (evalAtom s.tmp cas.addr)) (sizeofIRType (evalAtom s.tmp cas.expdLo).ty) cas.endness⟩
    exact iteAgrees (writesAgrees set _ _ _) set
  | some hi =>
    obtain ⟨expdHi,dataHi⟩ := his hi upper
    dsimp only
    rw [atomAgrees agrees expdHi,atomAgrees agrees dataHi]
    refine iteAgrees (writesAgrees (writesAgrees ?_ _ _ _) _ _ _) ?_
    all_goals exact setAgrees (setAgrees agrees _ _) _ _

end

def noCalls {σ : Type} : Calls Empty σ where
  call c := c.elim
  retty c := c.elim

def Answers {τ : Type} (ask : Event → τ → Option (List UChar × τ)) (Kept : τ → Prop) : Prop :=
  ∀ e f, Fits e → Kept f → ∃ bytes after, ask e f = some (bytes,after) ∧ Kept after

/- No assertion fails on what the tool is told of. -/
structure Accepts (takes : List Report → Report → Bool) (b : Bounds) : Prop where
  insn : ∀ clone, b.told clone → ∀ log value taint,
    takes log (.insn clone value taint) = true ∧ takes log (.insn1 clone taint) = true
  next : ∀ a, b.toldNext a → ∀ log value taint, takes log (.next a value taint) = true

section
variable {σ τ : Type} {ask : Event → τ → Option (List UChar × τ)} {takes : List Report → Report → Bool}
  {Kept : τ → Prop} {b : Bounds} {s : Machine σ} {t : Machine τ} {P : Prop}

theorem loadFits (size : LoadSize) (endness : IREndness) (a : Addr) : Fits (loadEvent size endness a) := by
  cases size <;> trivial

theorem storeFits (w : Width) (endness : IREndness) (a : Addr) (v : ULong) : Fits (storeEvent w endness a v) := by
  cases w <;> trivial

theorem reports {w : World τ} {r : Report} (accepts : P ∨ takes w.log r = true) (kept : Kept w.shadow) :
    report takes w r = none ∧ P ∨
      ∃ v u, report takes w r = some (v,u) ∧ u.mem = w.mem ∧ u.state = w.state ∧ Kept u.shadow := by
  unfold report
  by_cases taken : takes w.log r = true
  · exact .inr ⟨0,told w r,if_pos taken,rfl,rfl,kept⟩
  · exact .inl ⟨if_neg taken,accepts.resolve_right taken⟩

/- A helper that is called as it should be fails an assertion, or it ends and the program sees
nothing of it. -/
theorem callAnswers (answers : Answers ask Kept) (accepts : P ∨ Accepts takes b) {h : Helper} {args : List Value}
    (called : Takes b h args.length) {w : World τ} (kept : Kept w.shadow) :
    (helperCalls ask takes).call h args w = none ∧ P ∨ ∃ v u, (helperCalls ask takes).call h args w = some (v,u) ∧
      u.mem = w.mem ∧ u.state = w.state ∧ Kept u.shadow := by
  cases h with
  | helpercLOADV size endness =>
    cases last : args.getLast? with
    | none =>
      cases List.getLast?_eq_none_iff.mp last
      exact (Nat.lt_irrefl 0 called).elim
    | some a =>
      obtain ⟨bytes,after,asked,sound⟩ := answers _ w.shadow (loadFits size endness (a.setWidth 64)) kept
      refine .inr ⟨fromBytes bytes,{ w with shadow := after },?_,rfl,rfl,sound⟩
      simp only [helperCalls,last,asked,Option.map_some]
  | helpercSTOREV width endness =>
    obtain ⟨a,v,rfl⟩ := List.length_eq_two.mp called
    obtain ⟨bytes,after,asked,sound⟩ := answers _ w.shadow
      (storeFits width endness (a.setWidth 64) (v.setWidth 64)) kept
    refine .inr ⟨0,{ w with shadow := after },?_,rfl,rfl,sound⟩
    simp only [helperCalls,asked,Option.map_some]
  | emitInsn clone =>
    obtain ⟨value,taint,rfl⟩ := List.length_eq_two.mp called.1
    exact reports (accepts.imp id fun all => (all.insn clone called.2 _ _ _).1) kept
  | emitInsn1 clone =>
    obtain ⟨taint,rfl⟩ := List.length_eq_one_iff.mp called.1
    exact reports (accepts.imp id fun all => (all.insn clone called.2 _ 0 _).2) kept
  | emitNext clone =>
    obtain ⟨value,taint,rfl⟩ := List.length_eq_two.mp called.1
    exact reports (accepts.imp id fun all => all.next clone called.2 _ _ _) kept

theorem dirtyRuns (answers : Answers ask Kept) (accepts : P ∨ Accepts takes b) {d : IRDirty Helper}
    (called : Takes b d.cee d.args.length) (new : ∀ k ∈ d.tmp, b.temps ≤ k) (agrees : Agrees Kept b s t) :
    doDirty (helperCalls ask takes) d t = none ∧ P ∨
      ∃ u, doDirty (helperCalls ask takes) d t = some u ∧ Agrees Kept b s u := by
  unfold doDirty
  by_cases guarded : isTrue (evalAtom t.tmp d.guard).bits = true
  · have counted : Takes b d.cee (d.args.map (argValue t.tmp)).length := by
      rw [List.length_map]
      exact called
    rw [if_pos guarded]
    rcases callAnswers answers accepts counted agrees.kept with ⟨failed,may⟩ | ⟨v,world,ran,mem,state,kept⟩
    · rw [failed]
      exact .inl ⟨rfl,may⟩
    · have after : Agrees Kept b s { t with world := world } :=
        ⟨agrees.tmp,⟨mem.trans agrees.world.mem,fun k below => (congrFun state k).trans (agrees.world.state k below)⟩,kept⟩
      rw [ran]
      exact .inr ⟨_,rfl,setTmpApart after new _⟩
  · rw [if_neg guarded]
    exact .inr ⟨_,rfl,setTmpApart agrees new _⟩

theorem ownRuns (prims : Prims) (answers : Answers ask Kept) (accepts : P ∨ Accepts takes b) {st : IRStmt Helper}
    (own : Own b st) (agrees : Agrees Kept b s t) : exec prims (helperCalls ask takes) st t = none ∧ P ∨
      ∃ u, exec prims (helperCalls ask takes) st t = some (none,u) ∧ Agrees Kept b s u := by
  cases own with
  | wrTmp new => exact .inr ⟨_,rfl,setApart agrees new _⟩
  | put above => exact .inr ⟨_,rfl,putsApart agrees above _⟩
  | putI above => exact .inr ⟨_,rfl,putsApart agrees (Nat.le_add_right_of_le above) _⟩
  | dirty called new =>
    rw [exec]
    rcases dirtyRuns answers accepts called new agrees with ⟨failed,may⟩ | ⟨u,ran,after⟩
    · rw [failed]
      exact .inl ⟨rfl,may⟩
    · rw [ran]
      exact .inr ⟨u,rfl,after⟩

theorem copyRuns (prims : Prims) {st : IRStmt Empty} (inside : StmtInside b st) (agrees : Agrees Kept b s t) :
    ∃ e u v, exec prims noCalls st s = some (e,u) ∧ exec prims (helperCalls ask takes) st.copy t = some (e,v) ∧
      Agrees Kept b u v := by
  cases st with
  | noOp | iMark addr len | abiHint base len nia | mbe => exact ⟨none,s,t,rfl,rfl,agrees⟩
  | put offset data =>
    refine ⟨none,_,_,rfl,rfl,?_⟩
    rw [atomAgrees agrees inside]
    exact putsAgrees agrees _ _
  | putI descr ix bias data =>
    refine ⟨none,_,_,rfl,rfl,?_⟩
    rw [atomAgrees agrees inside.1,atomAgrees agrees inside.2]
    exact putsAgrees agrees _ _
  | wrTmp tmp data =>
    refine ⟨none,_,_,rfl,rfl,?_⟩
    rw [evalAgrees prims agrees inside]
    exact setAgrees agrees _ _
  | store endness addr data =>
    refine ⟨none,_,_,rfl,rfl,?_⟩
    rw [atomAgrees agrees inside.1,atomAgrees agrees inside.2]
    exact writesAgrees agrees _ _ _
  | storeG sg =>
    refine ⟨none,_,_,rfl,rfl,?_⟩
    rw [atomAgrees agrees inside.1,atomAgrees agrees inside.2.1,atomAgrees agrees inside.2.2]
    exact iteAgrees (writesAgrees agrees _ _ _) agrees
  | loadG lg =>
    refine ⟨none,_,_,rfl,rfl,?_⟩
    rw [atomAgrees agrees inside.1,atomAgrees agrees inside.2.1,atomAgrees agrees inside.2.2,agrees.world.mem]
    exact setAgrees agrees _ _
  | cas cas => exact ⟨none,_,_,rfl,rfl,casAgrees agrees inside⟩
  | dirty d => exact d.cee.elim
  | exit guard dst =>
    refine ⟨_,s,t,rfl,?_,agrees⟩
    rw [IRStmt.copy,exec,atomAgrees agrees inside]

theorem execAllCode {κ : Type} (prims : Prims) (calls : Calls κ σ) (sts : List (IRStmt κ)) (s : Machine σ) :
    execAll prims calls sts s = runCode (exec prims calls) sts s := by
  induction sts generalizing s with
  | nil => rfl
  | cons st rest ih =>
    rw [execAll,runCode]
    cases ran : exec prims calls st s with
    | none => rfl
    | some result =>
      obtain ⟨exit,t⟩ := result
      cases exit with
      | some dst => rfl
      | none => exact ih t

variable {layout : Layout} {gWordTy hWordTy : IRType} {darwin : Bool}

theorem blockRuns (prims : Prims) (answers : Answers ask Kept) {sb : IRSB Empty} {out : IRSB Helper}
    (inside : Inside layout sb) (built : instrument sb layout gWordTy hWordTy darwin = some out)
    (accepts : P ∨ Accepts takes (boundsOf layout sb)) (agrees : Agrees Kept (boundsOf layout sb) s t) :
    runIRSB prims (helperCalls ask takes) out t = none ∧ P ∨
      ∃ pc w w', runIRSB prims noCalls sb s = some (pc,w) ∧ runIRSB prims (helperCalls ask takes) out t = some (pc,w') ∧
        SeenAlike layout.totalSizeB w w' ∧ Kept w'.shadow := by
  obtain ⟨woven,next⟩ := instrumentsWoven built
  have both (st : IRStmt Empty) (s : Machine σ) (t : Machine τ) (fits : StmtInside (boundsOf layout sb) st)
      (related : Agrees Kept (boundsOf layout sb) s t) :
      ∃ e u v, exec prims noCalls st s = some (e,u) ∧ exec prims (helperCalls ask takes) st.copy t = some (e,v) ∧
        Agrees Kept (boundsOf layout sb) u v := copyRuns prims fits related
  have alone (st : IRStmt Helper) (s : Machine σ) (t : Machine τ) (own : Own (boundsOf layout sb) st)
      (related : Agrees Kept (boundsOf layout sb) s t) : exec prims (helperCalls ask takes) st t = none ∧ P ∨
        ∃ u, exec prims (helperCalls ask takes) st t = some (none,u) ∧ Agrees Kept (boundsOf layout sb) s u :=
    ownRuns prims answers accepts own related
  have runs := wovenRuns alone both woven inside.stmts agrees
  rw [← execAllCode,← execAllCode] at runs
  rcases runs with ⟨failed,may⟩ | ⟨e,u,v,ran,ran',after⟩
  · exact .inl ⟨by rw [runIRSB,failed]; rfl,may⟩
  · refine .inr ⟨e.getD (addrOf (evalAtom u.tmp sb.next)),u.world,v.world,?_,?_,after.world,after.kept⟩
    · rw [runIRSB,ran]
      rfl
    · rw [runIRSB,ran',next]
      show some (e.getD (addrOf (evalAtom v.tmp sb.next)),v.world) = _
      rw [atomAgrees after inside.next]

end

/- One block after another. What temporaries hold when a block is entered is anything. -/
def runBlocks {κ σ : Type} (prims : Prims) (calls : Calls κ σ) (blocks : Addr → Option (IRSB κ))
    (entered : Addr → IRTemp → Val) : Nat → Addr → World σ → Option (Addr × World σ)
  | 0,pc,w => some (pc,w)
  | n + 1,pc,w => do
    let sb ← blocks pc
    let (next,after) ← runIRSB prims calls sb ⟨entered pc,w⟩
    runBlocks prims calls blocks entered n next after

def translated (layout : Layout) (gWordTy hWordTy : IRType) (darwin : Bool) (blocks : Addr → Option (IRSB Empty))
    (pc : Addr) : Option (IRSB Helper) :=
  (blocks pc).bind fun sb => instrument sb layout gWordTy hWordTy darwin

def Alike {σ τ : Type} (layout : Layout) : Option (Addr × World σ) → Option (Addr × World τ) → Prop :=
  Option.Rel fun x y => x.1 = y.1 ∧ SeenAlike layout.totalSizeB x.2 y.2

/- The tool fails an assertion, which it does only where P is true, or both runs are alike. -/
theorem runsEnd (prims : Prims) (takes : List Report → Report → Bool) (P : Prop) {σ : Type} {layout : Layout}
    {gWordTy hWordTy : IRType} {darwin : Bool} {blocks : Addr → Option (IRSB Empty)}
    (inside : ∀ pc, ∀ sb ∈ blocks pc, Inside layout sb)
    (built : ∀ pc, ∀ sb ∈ blocks pc, (instrument sb layout gWordTy hWordTy darwin).isSome)
    (accepts : ∀ pc, ∀ sb ∈ blocks pc, P ∨ Accepts takes (boundsOf layout sb))
    (entered : Addr → IRTemp → Val) (n : Nat) (pc : Addr) (w : World σ) (w' : World ShadowMem) {f : Flat}
    (alike : SeenAlike layout.totalSizeB w w') (taints : Taints f w'.shadow) :
    runBlocks prims (helperCalls step takes) (translated layout gWordTy hWordTy darwin blocks) entered n pc w' = none ∧ P ∨
      Alike layout (runBlocks prims noCalls blocks entered n pc w)
        (runBlocks prims (helperCalls step takes) (translated layout gWordTy hWordTy darwin blocks) entered n pc w') := by
  have answers : Answers step (fun s => ∃ f, Taints f s) := by
    intro e s fits ⟨f,taints⟩
    obtain ⟨bytes,after,ran,_,kept⟩ := stepRefines e f s fits taints
    exact ⟨bytes,after,ran,_,kept⟩
  induction n generalizing pc w w' f with
  | zero => exact .inr (.some ⟨rfl,alike⟩)
  | succ n ih =>
    rw [runBlocks,runBlocks,translated]
    cases here : blocks pc with
    | none => exact .inr .none
    | some sb =>
      obtain ⟨out,made⟩ := Option.isSome_iff_exists.mp (built pc sb here)
      have block := blockRuns prims answers (inside pc sb here) made (accepts pc sb here)
        (s := ⟨entered pc,w⟩) (t := ⟨entered pc,w'⟩) ⟨fun _ _ => rfl,alike,f,taints⟩
      show ((instrument sb layout gWordTy hWordTy darwin).bind _) = none ∧ P ∨
        Alike layout ((runIRSB prims noCalls sb ⟨entered pc,w⟩).bind _)
          ((instrument sb layout gWordTy hWordTy darwin).bind _)
      rw [made]
      show ((runIRSB prims (helperCalls step takes) out ⟨entered pc,w'⟩).bind _) = none ∧ P ∨
        Alike layout _ ((runIRSB prims (helperCalls step takes) out ⟨entered pc,w'⟩).bind _)
      rcases block with ⟨failed,may⟩ | ⟨next,u,v,ran,ran',after,f',kept⟩
      · rw [failed]
        exact .inl ⟨rfl,may⟩
      · rw [ran,ran']
        exact ih next u v after kept

/- What the tool is told of a block is in the arrays it keeps of temporaries and registers. -/
structure ToldFits (uword : Nat) (sb : IRSB Empty) : Prop where
  stmts : ∀ st ∈ sb.stmts, ∀ clone ∈ toldOf st, Emittable uword clone
  next : printInfoFlowTmp sb.next = true

/- However many blocks are run, the instrumented program has failed an assertion of an emit helper,
or both programs are at the same place, and the guest sees the same memory and the same state.
Where the tool's arrays hold what it is told of, no assertion fails. -/
theorem runsAlike (prims : Prims) (session : Session) {σ : Type} {layout : Layout} {gWordTy hWordTy : IRType}
    {darwin : Bool} {blocks : Addr → Option (IRSB Empty)} (inside : ∀ pc, ∀ sb ∈ blocks pc, Inside layout sb)
    (built : ∀ pc, ∀ sb ∈ blocks pc, (instrument sb layout gWordTy hWordTy darwin).isSome)
    (entered : Addr → IRTemp → Val) (n : Nat) (pc : Addr) (w : World σ) (w' : World ShadowMem) {f : Flat}
    (alike : SeenAlike layout.totalSizeB w w') (taints : Taints f w'.shadow) :
    let plain := runBlocks prims noCalls blocks entered n pc w
    let instrumented := runBlocks prims (helperCalls step (passes session))
      (translated layout gWordTy hWordTy darwin blocks) entered n pc w'
    (instrumented = none ∨ Alike layout plain instrumented) ∧
      (Tellable session → (∀ pc, ∀ sb ∈ blocks pc, ToldFits session.uword sb) → Alike layout plain instrumented) := by
  intro plain instrumented
  constructor
  · exact (runsEnd prims (passes session) True inside built (fun _ _ _ => .inl trivial) entered n pc w w'
      alike taints).imp And.left id
  · intro tellable told
    refine (runsEnd prims (passes session) False inside built (fun pc sb here => .inr ⟨?_,?_⟩) entered n pc w w'
      alike taints).resolve_left fun stopped => stopped.2
    · rintro clone ⟨st,among,same⟩ log value taint
      exact passesFitting tellable ((told pc sb here).stmts st among clone same) value taint
    · rintro a rfl log value taint
      exact passesNext (told pc sb here).next value taint

/- A register is pushed and counted on; the block is left where it has become odd. -/
def pushBlock : IRSB Empty where
  tyenv := [.i64,.i64,.i1]
  stmts := [.iMark 0x400000 8,.wrTmp 0 (.get 16 .i64),.wrTmp 1 (.binop (.add .w64) (.rdTmp 0) (.const (.u64 8))),
    .store .le (.rdTmp 1) (.rdTmp 0),.put 16 (.rdTmp 1),.wrTmp 2 (.unop .iop64to1 (.rdTmp 1)),.exit (.rdTmp 2) 0]
  next := .const (.u64 0x400000)

def pushes (pc : Addr) : Option (IRSB Empty) := if pc = 0x400000 then some pushBlock else none

theorem pushInside : Inside ⟨32⟩ pushBlock where
  stmts st among := by
    fin_cases among
    case «0» => trivial
    case «1» => exact (by decide : 16 + 8 ≤ 32)
    case «2» => exact ⟨(by decide : 0 < 3),trivial⟩
    case «3» => exact ⟨(by decide : 1 < 3),(by decide : 0 < 3)⟩
    case «6» => exact (by decide : 2 < 3)
    all_goals exact (by decide : 1 < 3)
  next := trivial

theorem pushBuilt : (instrument pushBlock ⟨32⟩ .i64 .i64 false).isSome := by decide +kernel

def printAll : Session := ⟨8,fun _ _ => true,fun _ _ => true,fun _ _ => true⟩

theorem pushTold : ToldFits 8 pushBlock where
  stmts st among := by
    fin_cases among <;> intro clone told <;> cases told
    all_goals simp [Emittable,ExprFits,printInfoFlowTmp,tiMax,riMax]
  next := rfl

theorem runsAlikePushes :
    Alike ⟨32⟩
      (runBlocks ⟨fun _ _ => 0,fun _ _ _ => 0,fun _ _ _ _ => 0,fun _ _ => 0⟩ noCalls pushes (fun _ _ => ⟨.i64,0⟩) 5
        0x400000 (⟨fun _ => 0,fun _ => 0,(),[]⟩ : World Unit))
      (runBlocks ⟨fun _ _ => 0,fun _ _ _ => 0,fun _ _ _ _ => 0,fun _ _ => 0⟩ (helperCalls step (passes printAll))
        (translated ⟨32⟩ .i64 .i64 false pushes) (fun _ _ => ⟨.i64,0⟩) 5
        0x400000 ⟨fun _ => 0,fun _ => 0,initShadowMemory fun limit _ => limit,[]⟩) := by
  have only (pc : Addr) (sb : IRSB Empty) (here : sb ∈ pushes pc) : sb = pushBlock := by
    unfold pushes at here
    split at here
    · exact (Option.some.inj here).symm
    · cases here
  refine (runsAlike _ printAll (fun pc sb here => ?_) (fun pc sb here => ?_) _ 5 0x400000
    ⟨fun _ => 0,fun _ => 0,(),[]⟩ ⟨fun _ => 0,fun _ => 0,initShadowMemory fun limit _ => limit,[]⟩ ⟨rfl,fun _ _ => rfl⟩
    (startTaints fun limit _ => limit)).2 (fun _ _ => ⟨rfl,rfl⟩) fun pc sb here => ?_
  · rw [only pc sb here]
    exact pushInside
  · rw [only pc sb here]
    exact pushBuilt
  · rw [only pc sb here]
    exact pushTold

end Autonomizer.Transparent
