import Mathlib
import Autonomizer.CombineLoad
import Autonomizer.DataFiles

/-! The widths that a generated model declares, beside the lengths of the rows that the
data files of the same run are read back as. -/
namespace Autonomizer.Widths
open CombineLoad (combineName combineLoadCons tokensPlain)
open Data DataFiles FileIO FileSystem Footprint Format PIInc PIModelManager PINNHelper Process
open ProgIntel Shared SingleModel StoreFile Template Trace

def Sized (loadSize storeSize : Text → Int) : Call → Prop
  | .piLoad name _ nmemb _ _ => nmemb = loadSize name
  | .piLoadCB name _ nmemb _ => nmemb = loadSize name
  | .piStore name _ nmemb _ => nmemb = storeSize name
  | _ => True

def widthOf (loadSize : Text → Int) (name : Text) : Int :=
  if '_' ∈ name then ((tokens name).map loadSize).sum else loadSize name

/- An entry of loadMap: a load of its own, or a combination. -/
def EntrySized (loadSize : Text → Int) (name : Text) (pDC : DataContext) : Prop :=
  (pDC.combinedLoad = [] ∧ pDC.nmemb = loadSize name) ∨
  ('_' ∈ name ∧ pDC.combinedLoad = tokens name ∧ pDC.nmemb = ((tokens name).map loadSize).sum)

structure SizesKept (loadSize storeSize : Text → Int) (ctx : PIContext) : Prop where
  loads : ∀ name pDC, ctx.loadMap name = some pDC → EntrySized loadSize name pDC
  stores : ∀ name pDC, ctx.storeMap name = some pDC → pDC.nmemb = storeSize name

section
variable {loadSize storeSize : Text → Int} {ctx next : PIContext}

theorem setDataShape {pDC set : DataContext} {m after : Memory} {data : Pointer}
    (done : pDC.setData m data = .ok (set,after)) :
    set.nmemb = pDC.nmemb ∧ set.combinedLoad = pDC.combinedLoad := by
  simp only [DataContext.setData,bind,Except.bind] at done
  split at done <;> try contradiction
  split at done
  · split at done <;> try contradiction
    split at done <;> try contradiction
    split at done <;> try contradiction
    split at done <;> try contradiction
    cases done
    exact ⟨rfl,rfl⟩
  · cases done
    exact ⟨rfl,rfl⟩

theorem contextOfShape {known : Option DataContext} {m after : Memory} {tID : TypeID} {nmemb : Int}
    {doAlloc : Bool} {pDC : DataContext} (done : contextOf known m tID nmemb doAlloc = .ok (pDC,after)) :
    known = some pDC ∨ (known = none ∧ pDC = ⟨tID,nmemb,pDC.data,doAlloc,[]⟩) := by
  cases known with
  | some old => cases done; exact .inl rfl
  | none =>
    refine .inr ⟨rfl,?_⟩
    simp only [contextOf,DataContext.new,bind,Except.bind] at done
    split at done
    · split at done <;> try contradiction
      split at done <;> try contradiction
      cases done
      rfl
    · cases done
      rfl

theorem loadEntry {name : Text} {m after : Memory} {tID : TypeID} {doAlloc : Bool}
    {pDC : DataContext} (sizes : SizesKept loadSize storeSize ctx)
    (done : contextOf (ctx.loadMap name) m tID (loadSize name) doAlloc = .ok (pDC,after)) :
    EntrySized loadSize name pDC := by
  rcases contextOfShape done with known | ⟨_,made⟩
  · exact sizes.loads name pDC known
  · rw [made]
    exact .inl ⟨rfl,rfl⟩

theorem putLoad {name : Text} {pDC : DataContext} {m : Memory}
    (sizes : SizesKept loadSize storeSize ctx) (entry : EntrySized loadSize name pDC) :
    SizesKept loadSize storeSize
      { ctx with loadMap := Function.update ctx.loadMap name (some pDC), memory := m } := by
  refine ⟨fun other pOther known => ?_,sizes.stores⟩
  replace known : Function.update ctx.loadMap name (some pDC) other = some pOther := known
  rw [Function.update_apply] at known
  split at known
  · next here => cases known; exact here ▸ entry
  · exact sizes.loads other pOther known

theorem combinedNmembSum {parts : List Text} {nmemb total : Int}
    (sizes : SizesKept loadSize storeSize ctx) (plain : ∀ part ∈ parts, '_' ∉ part)
    (done : combinedNmemb ctx parts nmemb = .ok total) :
    total = nmemb + (parts.map loadSize).sum := by
  induction parts generalizing nmemb with
  | nil => cases done; simp
  | cons part rest ih =>
    simp only [combinedNmemb] at done
    split at done <;> try contradiction
    next pDC known =>
    split at done <;> try contradiction
    have own : pDC.nmemb = loadSize part := by
      rcases sizes.loads part pDC known with ⟨_,same⟩ | ⟨combined,_⟩
      · exact same
      · exact absurd combined (plain part List.mem_cons_self)
    rw [ih (fun other inside => plain other (List.mem_cons_of_mem part inside)) done,own,
      List.map_cons,List.sum_cons,add_assoc]

theorem combinedContextSizes {name : Text} {pDC : DataContext}
    (sizes : SizesKept loadSize storeSize ctx) (named : '_' ∈ name)
    (done : combinedContext ctx name = .ok (pDC,next)) : SizesKept loadSize storeSize next ∧
      next.loadMap name = some pDC ∧ ∀ other, other ≠ name → next.loadMap other = ctx.loadMap other := by
  simp only [combinedContext,bind,Except.bind] at done
  split at done
  · next known => cases done; exact ⟨sizes,known,fun _ _ => rfl⟩
  · split at done <;> try contradiction
    split at done <;> try contradiction
    next total summed =>
    split at done <;> try contradiction
    next pair made =>
    obtain ⟨fresh,m⟩ := pair
    cases done
    have shape : fresh = ⟨.d,total,fresh.data,true,[]⟩ := by
      have new : contextOf none ctx.memory .d total true = .ok (fresh,m) := made
      rcases contextOfShape new with old | ⟨_,same⟩
      · cases old
      · exact same
    have sum := combinedNmembSum sizes (fun part inside => tokensPlain inside) summed
    refine ⟨putLoad sizes (.inr ⟨named,rfl,?_⟩),Function.update_self ..,
      fun other apart => Function.update_of_ne apart ..⟩
    rw [shape]
    exact sum.trans (Int.zero_add _)

theorem combineLoadSizes {names : List Text} (sizes : SizesKept loadSize storeSize ctx)
    (done : combineLoad ctx names = .ok next) : SizesKept loadSize storeSize next ∧
      (∀ name pDC, ctx.loadMap name = some pDC → next.loadMap name = some pDC) ∧
      ∀ name ∈ names, '_' ∈ name → ∃ pDC, next.loadMap name = some pDC ∧ pDC.combinedLoad ≠ [] := by
  induction names generalizing ctx with
  | nil =>
    cases done
    exact ⟨sizes,fun _ _ known => known,fun name inside => absurd inside List.not_mem_nil⟩
  | cons name rest ih =>
    rw [combineLoadCons] at done
    split at done
    · next named =>
      simp only [combineName,bind,Except.bind] at done
      split at done <;> try contradiction
      next mid turn =>
      split at turn <;> try contradiction
      next pair made =>
      obtain ⟨pCDC,ctx₁⟩ := pair
      dsimp only at turn
      split at turn <;> try contradiction
      next several =>
      split at turn <;> try contradiction
      next m _ =>
      cases turn
      obtain ⟨sizes₁,known,others⟩ := combinedContextSizes sizes named made
      have filled : SizesKept loadSize storeSize { ctx₁ with memory := m } :=
        ⟨sizes₁.loads,sizes₁.stores⟩
      obtain ⟨sizes₂,kept,combined⟩ := ih filled done
      have whole : pCDC.combinedLoad ≠ [] := fun none => by simp [none] at several
      refine ⟨sizes₂,fun other pOther before => ?_,fun other inside named' => ?_⟩
      · refine kept other pOther ?_
        by_cases same : other = name
        · subst same
          have old : combinedContext ctx other = .ok (pOther,ctx) := by
            simp only [combinedContext,before]
          rw [old] at made
          cases made
          exact known
        · exact (others other same).trans before
      · rcases List.mem_cons.mp inside with rfl | later
        · exact ⟨pCDC,kept other pCDC known,whole⟩
        · exact combined other later named'
    · next plain =>
      obtain ⟨sizes₂,kept,combined⟩ := ih sizes done
      refine ⟨sizes₂,kept,fun other inside named => ?_⟩
      rcases List.mem_cons.mp inside with rfl | later
      · exact absurd named plain
      · exact combined other later named

theorem firstWidth {loads : List Text} {pDC : DataContext}
    (sizes : SizesKept loadSize storeSize ctx) (done : combineLoad ctx loads = .ok next)
    (known : next.loadMap (loads.headD []) = some pDC) :
    pDC.nmemb = widthOf loadSize (loads.headD []) := by
  obtain ⟨sizes₂,_,combined⟩ := combineLoadSizes sizes done
  unfold widthOf
  split
  · next named =>
    have inside : loads.headD [] ∈ loads := by
      cases loads with
      | nil => exact absurd named List.not_mem_nil
      | cons load rest => exact List.mem_cons_self
    obtain ⟨other,found,whole⟩ := combined _ inside named
    cases known.symm.trans found
    rcases sizes₂.loads _ pDC known with ⟨none,_⟩ | ⟨_,_,sum⟩
    · exact absurd none whole
    · exact sum
  · next plain =>
    rcases sizes₂.loads _ pDC known with ⟨_,own⟩ | ⟨named,_⟩
    · exact own
    · exact absurd named plain

theorem storeSizes {name : Text} {tID : TypeID} {data : Pointer}
    (sizes : SizesKept loadSize storeSize ctx)
    (done : storeContext ctx name tID (storeSize name) data = .ok next) :
    SizesKept loadSize storeSize next := by
  simp only [storeContext,bind,Except.bind] at done
  split at done <;> try contradiction
  next pair made =>
  split at done <;> try contradiction
  next pair' filled =>
  cases done
  have own : pair'.1.nmemb = storeSize name := by
    rw [(setDataShape filled).1]
    rcases contextOfShape made with known | ⟨_,shape⟩
    · exact sizes.stores name _ known
    · exact (congrArg DataContext.nmemb shape).trans rfl
  refine ⟨sizes.loads,fun other pOther known => ?_⟩
  replace known : Function.update ctx.storeMap name (some pair'.1) other = some pOther := known
  rw [Function.update_apply] at known
  split at known
  · next here => cases known; exact here ▸ own
  · exact sizes.stores other pOther known

theorem effectSizes {c : Call} {pieces : List Piece} (sizes : SizesKept loadSize storeSize ctx)
    (sized : Sized loadSize storeSize c) (done : effectOf ctx c = .ok (next,pieces)) :
    SizesKept loadSize storeSize next := by
  cases c with
  | piLoad name tID nmemb data doAlloc =>
    cases sized
    simp only [effectOf,bind,Except.bind,load] at done
    split at done <;> try contradiction
    next loaded taken =>
    split at taken <;> try contradiction
    next pair made =>
    split at taken <;> try contradiction
    next pair' filled =>
    cases taken
    cases done
    refine putLoad sizes ?_
    rw [EntrySized,(setDataShape filled).1,(setDataShape filled).2]
    exact loadEntry sizes made
  | piLoadCB name tID nmemb cb =>
    cases sized
    simp only [effectOf,bind,Except.bind,loadCB] at done
    split at done <;> try contradiction
    next loaded taken =>
    split at taken <;> try contradiction
    next pair made =>
    split at taken <;> try contradiction
    cases taken
    cases done
    exact putLoad sizes (loadEntry sizes made)
  | piNN modelName stg loads stores =>
    simp only [effectOf,bind,Except.bind] at done
    split at done <;> try contradiction
    next ctx' combined =>
    split at done <;> try contradiction
    split at done <;> try contradiction
    cases done
    have kept := (combineLoadSizes sizes combined).1
    exact ⟨kept.loads,kept.stores⟩
  | piStore name tID nmemb data =>
    cases sized
    exact storeSizes sizes (storePiece done).1
  | poke data bytes =>
    simp only [effectOf] at done
    split at done <;> try contradiction
    cases done
    exact ⟨sizes.loads,sizes.stores⟩

theorem effectsSizes {script : List Call} {pieces : List Piece}
    (sizes : SizesKept loadSize storeSize ctx) (sized : ∀ c ∈ script, Sized loadSize storeSize c)
    (done : effects ctx script = .ok (next,pieces)) : SizesKept loadSize storeSize next := by
  induction script generalizing ctx pieces with
  | nil => cases done; exact sizes
  | cons c rest ih =>
    obtain ⟨mid,early,late,taken,rested,rfl⟩ := effectsCons done
    exact ih (effectSizes sizes (sized c List.mem_cons_self) taken)
      (fun d inside => sized d (List.mem_cons_of_mem c inside)) rested

def storeNames (script : List Call) : List Text :=
  script.filterMap fun c => match c with
    | .piStore name _ _ _ => some name
    | _ => none

theorem outputSizes {script : List Call} {outs : List Piece}
    (sizes : SizesKept loadSize storeSize ctx) (plain : ∀ c ∈ script, isNN c = false)
    (sized : ∀ c ∈ script, Sized loadSize storeSize c)
    (done : effects ctx script = .ok (next,outs)) :
    (outs.map partOf).map (fun p => (p.target,p.name,p.nmemb)) =
      (storeNames script).map (fun name => (.dOut,name,storeSize name)) := by
  induction script generalizing ctx outs with
  | nil => cases done; rfl
  | cons c rest ih =>
    obtain ⟨mid,early,late,taken,rested,rfl⟩ := effectsCons done
    have own := sized c List.mem_cons_self
    have kept := effectSizes sizes own taken
    have more := ih kept (fun d inside => plain d (List.mem_cons_of_mem c inside))
      (fun d inside => sized d (List.mem_cons_of_mem c inside)) rested
    cases store : isStore c with
    | false =>
      cases quietPieces ⟨plain c List.mem_cons_self,store⟩ taken
      have same : storeNames (c :: rest) = storeNames rest := by
        cases c <;> first | rfl | cases store
      rw [same]
      exact more
    | true =>
      cases c with
      | piStore name tID nmemb data =>
        obtain ⟨stored,pDC,values,known,_,rfl⟩ := storePiece taken
        have length := kept.stores name pDC known
        simp only [List.singleton_append,List.map_cons,partOf,length,more]
        rfl
      | _ => cases store

end

/- The calls of a child around its network: the lengths of all names are these, and every
store of the network is stored once. -/
structure Supervised (stores : List Text) (loadSize storeSize : Text → Int)
    (before after : List Call) : Prop where
  one : OneNetwork before after
  sized : ∀ c ∈ before ++ after, Sized loadSize storeSize c
  each : (storeNames after).Perm stores

def WidthsMatch (fs : FS) (m : Text) (inNmemb outNmemb : Int) : Prop :=
  ∀ dir, dir = piTrainDir ∨ dir = piValidDir → ∀ files, Walk fs [piDir,m,dir] files →
    ∃ ds, Dataset.init fs files = .ok ds ∧ (∀ row ∈ ds.dsIn, (row.length : Int) = inNmemb) ∧
      ∀ row ∈ ds.dsOut, (row.length : Int) = outNmemb

theorem numberCut {x y : Int} {rest more : Text}
    (equal : decimal x ++ ')' :: rest = decimal y ++ ')' :: more) : x = y ∧ rest = more := by
  have stops (tail : Text) : ∀ c ∈ (')' :: tail).head?, c.isDigit = false := by
    intro c head
    cases head
    rfl
  have left := scanDecimal x (')' :: rest) (stops rest)
  have right := scanDecimal y (')' :: more) (stops more)
  rw [equal,right] at left
  simp only [Option.some.injEq,Prod.mk.injEq,List.cons.injEq,true_and] at left
  exact ⟨left.1.symm,left.2.symm⟩

theorem twoNumbers {first second close : Text} (closes : close = [')','\n']) {a b c d : Int}
    (same : first ++ decimal a ++ close ++ second ++ decimal b ++ close =
      first ++ decimal c ++ close ++ second ++ decimal d ++ close) : a = c ∧ b = d := by
  subst closes
  simp only [List.append_assoc,List.cons_append,List.nil_append] at same
  obtain ⟨left,rest⟩ := numberCut (List.append_cancel_left same)
  exact ⟨left,(numberCut (List.append_cancel_left (List.cons.inj rest).2)).1⟩

theorem setWidthsInjective {a b c d : Int} (same : setWidths a b = setWidths c d) :
    a = c ∧ b = d :=
  twoNumbers (by decide) same

theorem allOnes {names : List Text} {size : Text → Int} (positive : ∀ name, 1 ≤ size name)
    (total : (names.map (fun name => (size name).toNat)).sum ≤ names.length) :
    ∀ name ∈ names, size name = 1 := by
  induction names with
  | nil => exact fun name inside => absurd inside List.not_mem_nil
  | cons first rest ih =>
    have least (names : List Text) : names.length ≤ (names.map (fun name => (size name).toNat)).sum := by
      induction names with
      | nil => exact le_rfl
      | cons name names ih =>
        have := positive name
        rw [List.length_cons,List.map_cons,List.sum_cons]
        omega
    have own := positive first
    have others := least rest
    rw [List.map_cons,List.sum_cons,List.length_cons] at total
    intro name inside
    rcases List.mem_cons.mp inside with rfl | later
    · omega
    · exact ih (by omega) name later

section
variable {m modPath : Text} {loads stores : List Text} {n v : Nat} {before after : Nat → List Call}
  {loadSize storeSize : Text → Int} {inOrder : Prop} {t : Children}

/- The sections of a child's data file: the first load, then the stores. -/
structure FileParts (loads : List Text) (loadSize storeSize : Text → Int) (names : List Text)
    (parts : List Part) : Prop where
  enough : ∀ p ∈ parts, p.enough
  shape : parts.map (fun p => (p.target,p.name,p.nmemb)) =
    (.dIn,loads.headD [],widthOf loadSize (loads.headD [])) ::
      names.map (fun name => (.dOut,name,storeSize name))

theorem childParts (end_ : Finished m modPath loads stores n v before after inOrder t) {k : Nat}
    (below : k < n + v) (calls : Supervised stores loadSize storeSize (before k) (after k)) :
    ∃ parts, fileText (t.shared (dataFile m (placeOf n k))) = some (parts.flatMap Part.text) ∧
      FileParts loads loadSize storeSize (storeNames (after k)) parts := by
  obtain ⟨next,pieces,done,text⟩ := end_.file k below
  obtain ⟨ctx₁,ctx₂,pDC,values,outs,first,combined,known,got,rest,rfl⟩ :=
    scriptedEffects calls.one done
  have start : SizesKept loadSize storeSize (childContext modPath n v k) :=
    ⟨fun name pDC known => (nomatch known),fun name pDC known => nomatch known⟩
  have sizes₁ := effectsSizes start
    (fun c inside => calls.sized c (List.mem_append_left _ inside)) first
  have width := firstWidth sizes₁ combined known
  have sizes₂ := (combineLoadSizes sizes₁ combined).1
  have recorded : SizesKept loadSize storeSize (recordStores ctx₂ m .one loads stores) :=
    ⟨sizes₂.loads,sizes₂.stores⟩
  obtain ⟨outputs,room⟩ := outputPieces calls.one.rest rest
  refine ⟨⟨.dIn,loads.headD [],pDC.nmemb,values⟩ :: outs.map partOf,
    text.trans (fileSections outputs),fun p inside => ?_,?_⟩
  · rcases List.mem_cons.mp inside with rfl | later
    · exact (loadValuesLength got).ge
    · obtain ⟨piece,member,rfl⟩ := List.mem_map.mp later
      exact room piece member
  · rw [List.map_cons,width,outputSizes recorded calls.one.rest
      (fun c inside => calls.sized c (List.mem_append_right _ inside)) rest]

theorem partsLength {names : List Text} {parts : List Part}
    (file : FileParts loads loadSize storeSize names parts) :
    (parts.flatMap (fun p => p.target.inputs p.numbers)).length =
      (widthOf loadSize (loads.headD [])).toNat ∧
    (parts.flatMap (fun p => p.target.outputs p.numbers)).length =
      (names.map (fun name => (storeSize name).toNat)).sum ∧
    (parts.map (fun p => p.nmemb.toNat)).sum = (widthOf loadSize (loads.headD [])).toNat +
      (names.map (fun name => (storeSize name).toNat)).sum := by
  -- each sum is one over the shapes of the parts
  have length (p : Part) (inside : p ∈ parts) : p.numbers.length = p.nmemb.toNat := by
    rw [Part.numbers,List.length_map,List.length_take_of_le (file.enough p inside)]
  have shaped (f : Target × Text × Int → Nat) :
      (parts.map (fun p => f (p.target,p.name,p.nmemb))).sum =
        f (.dIn,loads.headD [],widthOf loadSize (loads.headD [])) +
          (names.map (fun name => f (.dOut,name,storeSize name))).sum := by
    have mapped := congrArg (fun shapes => (shapes.map f).sum) file.shape
    simpa [List.map_map,Function.comp_def] using mapped
  refine ⟨?_,?_,shaped (fun shape => shape.2.2.toNat)⟩
  · have lengths : (parts.map (fun p => (p.target.inputs p.numbers).length)) =
        parts.map (fun p => if p.target = .dIn then p.nmemb.toNat else 0) := by
      refine List.map_congr_left fun p inside => ?_
      unfold Target.inputs
      split
      · exact length p inside
      · rfl
    rw [List.length_flatMap,lengths,
      shaped (fun shape => if shape.1 = .dIn then shape.2.2.toNat else 0)]
    simp
  · have lengths : (parts.map (fun p => (p.target.outputs p.numbers).length)) =
        parts.map (fun p => if p.target = .dOut then p.nmemb.toNat else 0) := by
      refine List.map_congr_left fun p inside => ?_
      unfold Target.outputs
      split
      · exact length p inside
      · rfl
    rw [List.length_flatMap,lengths,
      shaped (fun shape => if shape.1 = .dOut then shape.2.2.toNat else 0)]
    simp

theorem allWritten (end_ : Finished m modPath loads stores n v before after inOrder t)
    (calls : ∀ k < n + v, Supervised stores loadSize storeSize (before k) (after k)) :
    ∀ k < n, (fileText (t.shared (dataFile m (piTrainDir,k)))).isSome := by
  intro k below
  obtain ⟨parts,text,_⟩ := childParts end_ (show k < n + v by omega) (calls k (by omega))
  rw [placeOf,if_pos below] at text
  rw [text]
  rfl

theorem partNamed {names : List Text} {parts : List Part}
    (file : FileParts loads loadSize storeSize names parts) {target : Target} {name : Text}
    (known : (target,name) = (.dIn,loads.headD []) ∨ (target = .dOut ∧ name ∈ names)) :
    ∃ p ∈ parts, p.target = target ∧ p.name = name := by
  have inside : ∃ nmemb, (target,name,nmemb) ∈ parts.map (fun p => (p.target,p.name,p.nmemb)) := by
    rw [file.shape]
    rcases known with same | ⟨rfl,member⟩
    · cases same
      exact ⟨_,List.mem_cons_self⟩
    · exact ⟨_,List.mem_cons_of_mem _ (List.mem_map_of_mem member)⟩
  obtain ⟨nmemb,member⟩ := inside
  obtain ⟨p,among,same⟩ := List.mem_map.mp member
  exact ⟨p,among,congrArg Prod.fst same,congrArg (fun s => s.2.1) same⟩

theorem partKnown {names : List Text} {parts : List Part}
    (file : FileParts loads loadSize storeSize names parts) {p : Part} (among : p ∈ parts) :
    (p.target,p.name) = (.dIn,loads.headD []) ∨ (p.target = .dOut ∧ p.name ∈ names) := by
  have inside := List.mem_map_of_mem (f := fun p : Part => (p.target,p.name,p.nmemb)) among
  rw [file.shape] at inside
  rcases List.mem_cons.mp inside with same | later
  · simp only [Prod.mk.injEq] at same
    exact .inl (Prod.ext same.1 same.2.1)
  · obtain ⟨name,member,same⟩ := List.mem_map.mp later
    simp only [Prod.mk.injEq] at same
    exact .inr ⟨same.1.symm,same.2.1 ▸ member⟩

theorem fileNeedsOnes {names : List Text} {parts : List Part} {inNmemb : Int} {r : Reading}
    (file : FileParts loads loadSize storeSize names parts) (each : names.Perm stores)
    (positive : ∀ name, 1 ≤ storeSize name)
    (read : readFile inNmemb (parts.flatMap Part.text) = .ok r)
    (lengthIn : r.dIn.length = (widthOf loadSize (loads.headD [])).toNat)
    (lengthOut : r.dOut.length = stores.length) :
    (∀ name ∈ stores, storeSize name = 1 ∧ Harmless .dOut name) ∧ Harmless .dIn (loads.headD []) := by
  obtain ⟨least,exact_⟩ := fileParts file.enough read
  have sum := (partsLength file).2.2
  have same : (names.map (fun name => (storeSize name).toNat)).sum =
      (stores.map (fun name => (storeSize name).toNat)).sum := (each.map _).sum_eq
  have ones : ∀ name ∈ stores, storeSize name = 1 := allOnes positive (by omega)
  have count : (stores.map (fun name => (storeSize name).toNat)).sum = stores.length := by
    have constant : stores.map (fun name => (storeSize name).toNat) = stores.map (fun _ => 1) :=
      List.map_congr_left fun name inside => by rw [ones name inside]; rfl
    rw [constant,List.map_const',List.sum_replicate,smul_eq_mul,Nat.mul_one]
  have harmless := exact_ (by omega)
  refine ⟨fun name inside => ⟨ones name inside,?_⟩,?_⟩
  · obtain ⟨p,among,target,rfl⟩ := partNamed file (.inr ⟨rfl,each.mem_iff.mpr inside⟩)
    exact target ▸ harmless p among
  · obtain ⟨p,among,target,name⟩ := partNamed file (.inl rfl)
    have own := harmless p among
    rw [Part.harmless,target,name] at own
    exact own

theorem fileFitsOnes {names : List Text} {parts : List Part}
    (file : FileParts loads loadSize storeSize names parts) (each : names.Perm stores)
    (ones : ∀ name ∈ stores, storeSize name = 1 ∧ Harmless .dOut name)
    (first : Harmless .dIn (loads.headD [])) :
    ∃ r, readFile (-1) (parts.flatMap Part.text) = .ok r ∧
      r.dIn.length = (widthOf loadSize (loads.headD [])).toNat ∧ r.dOut.length = stores.length := by
  have harmless : ∀ p ∈ parts, p.harmless := by
    intro p among
    rcases partKnown file among with same | ⟨target,member⟩
    · obtain ⟨target,name⟩ := Prod.mk.inj same
      rw [Part.harmless,target,name]
      exact first
    · rw [Part.harmless,target]
      exact (ones p.name (each.mem_iff.mp member)).2
  obtain ⟨r,read,rowIn,rowOut⟩ := partsFile harmless file.enough (-1)
  obtain ⟨lengthIn,lengthOut,_⟩ := partsLength file
  refine ⟨r,read,by rw [rowIn,lengthIn],?_⟩
  have constant : names.map (fun name => (storeSize name).toNat) = names.map (fun _ => 1) :=
    List.map_congr_left fun name inside => by rw [(ones name (each.mem_iff.mp inside)).1]; rfl
  rw [rowOut,lengthOut,constant,List.map_const',List.sum_replicate,smul_eq_mul,Nat.mul_one,
    each.length_eq]

/- The widths of a generated model fit its rows exactly when every store has one element
and no name announces numbers of its own. -/
theorem widthsIffOnes (some_ : 1 ≤ n) (positive : ∀ name, 1 ≤ loadSize name ∧ 1 ≤ storeSize name)
    (calls : ∀ k < n + v, Supervised stores loadSize storeSize (before k) (after k)) {fs : FS}
    (fresh : Fresh m fs) {schedule : List Nat}
    (run : Run (System.step handle) (fun _ _ => True)
      (start fs (networkRun m modPath loads stores n v before after)) schedule t)
    (done : ∀ k < n + v, (t.procs k).returned) {text : Text}
    (generated : t.shared (templatePath m) = some (.file text)) :
    (∃ inNmemb outNmemb, text = singleHead modPath m ++ setWidths inNmemb outNmemb ++
        singleTail loads stores (loads.headD []) ∧ WidthsMatch t.shared m inNmemb outNmemb) ↔
      (∀ name ∈ stores, storeSize name = 1 ∧ Harmless .dOut name) ∧
        Harmless .dIn (loads.headD []) := by
  have end_ := runFinished some_ (fun k below => (calls k below).one) fresh run done
  have zero : 0 < n + v := by omega
  -- the first child wrote the whole model file, and then no file of an ensemble
  have clear := clearGenerated end_ generated
  obtain ⟨ctx₁,pieces,ctx₂,pDC,first,combined,known,whole,_⟩ := (end_.leaves 0 zero).first rfl
  have wrote : replay (templatePath m) none (t.past 0) = some text := by
    rw [← end_.template,generated]
    rfl
  have start : SizesKept loadSize storeSize (childContext modPath n v 0) :=
    ⟨fun name pDC known => (nomatch known),fun name pDC known => nomatch known⟩
  have sizes := effectsSizes start
    (fun c inside => (calls 0 zero).sized c (List.mem_append_left _ inside)) first
  have width := firstWidth sizes combined known
  have model : text = modelText m modPath loads stores (widthOf loadSize (loads.headD [])) := by
    rcases whole with none | some_
    · rw [wrote] at none; cases none
    · rw [wrote] at some_
      rw [← width]
      exact Option.some.inj some_
  have least : 0 ≤ widthOf loadSize (loads.headD []) := by
    unfold widthOf
    split
    · refine List.sum_nonneg fun length inside => ?_
      obtain ⟨part,_,rfl⟩ := List.mem_map.mp inside
      have := (positive part).1
      omega
    · have := (positive (loads.headD [])).1
      omega
  constructor
  · rintro ⟨inNmemb,outNmemb,shape,fits⟩
    obtain ⟨rfl,rfl⟩ : inNmemb = widthOf loadSize (loads.headD []) ∧ outNmemb = stores.length := by
      rw [model,modelText] at shape
      obtain ⟨left,right⟩ := setWidthsInjective
        (List.append_cancel_left (List.append_cancel_right shape))
      exact ⟨left.symm,right.symm⟩
    -- the file of the first child decides
    obtain ⟨ds,read,rowsIn,rowsOut⟩ := fits piTrainDir (.inl rfl) _
      (trainWalk end_ clear (allWritten end_ calls))
    obtain ⟨rows,reads,dsIn,dsOut⟩ := datasetRows read
    obtain ⟨row,member,content,r,found,got,rfl⟩ := rowOf reads
      (List.mem_map_of_mem (List.mem_range.mpr (show 0 < n by omega)))
    obtain ⟨parts,text',file⟩ := childParts end_ zero (calls 0 zero)
    rw [placeOf,if_pos (show 0 < n by omega)] at text'
    cases found.symm.trans (fileAt text')
    have lengthIn := rowsIn r.dIn (dsIn ▸ List.mem_map_of_mem (f := Prod.fst) member)
    have lengthOut := rowsOut r.dOut (dsOut ▸ List.mem_map_of_mem (f := Prod.snd) member)
    exact fileNeedsOnes file (calls 0 zero).each (fun name => (positive name).2) got (by omega)
      (by omega)
  · rintro ⟨ones,harmless⟩
    refine ⟨_,_,model,fun dir _ files walk => ?_⟩
    have all : ∀ path ∈ files, ∃ row, Reads t.shared path row ∧
        (row.1.length : Int) = widthOf loadSize (loads.headD []) ∧ row.2.length = stores.length := by
      intro path inside
      obtain ⟨k,below,rfl⟩ := walkFiles end_ clear walk path inside
      obtain ⟨parts,text',file⟩ := childParts end_ below (calls k below)
      obtain ⟨r,read,lengthIn,lengthOut⟩ := fileFitsOnes file (calls k below).each ones harmless
      exact ⟨(r.dIn,r.dOut),⟨_,r,fileAt text',read,rfl⟩,by rw [lengthIn]; omega,lengthOut⟩
    obtain ⟨ds,rows,read,each,dsIn,dsOut⟩ := datasetInit all
    refine ⟨ds,read,fun row inside => ?_,fun row inside => ?_⟩
    · rw [dsIn] at inside
      obtain ⟨both,member,rfl⟩ := List.mem_map.mp inside
      obtain ⟨_,_,lengths⟩ := fileOf each member
      exact lengths.1
    · rw [dsOut] at inside
      obtain ⟨both,member,rfl⟩ := List.mem_map.mp inside
      obtain ⟨_,_,lengths⟩ := fileOf each member
      exact congrArg Int.ofNat lengths.2

end

def loadX : List Call := [.poke 1 [5,0,0,0,6,0,0,0],.piLoad ['x'] .i 1 1 false]

def storeY (nmemb : Int) : List Call := [.piStore ['y'] .i nmemb 1]

def oneChild (nmemb : Int) : Nat → Steps Unit :=
  networkRun ['m'] [] [['x']] [['y']] 1 0 (fun _ => loadX) (fun _ => storeY nmemb)

theorem oneChildSupervised (nmemb : Int) :
    Supervised [['y']] (fun _ => 1) (fun _ => nmemb) loadX (storeY nmemb) := by
  refine ⟨⟨by decide,?_⟩,?_,.refl _⟩
  · simp [storeY,isNN]
  · simp [loadX,storeY,Sized]

def generatedText : Text :=
  singleHead [] ['m'] ++ setWidths 1 1 ++ singleTail [['x']] [['y']] ['x']

/- The end of such a run: the model file and the numbers in a row. -/
def widthsSeen (t : Children) : Bool × Bool × Except ReadError (List Nat) :=
  ((t.procs 0).returned,t.shared (templatePath ['m']) = some (.file generatedText),
    (Dataset.init t.shared [dataFile ['m'] (piTrainDir,0)]).map fun ds => ds.dsOut.map List.length)

theorem singleFits : ∃ schedule t, Run (System.step handle) (fun _ _ => True)
    (start onlyMain (oneChild 1)) schedule t ∧
    t.shared (templatePath ['m']) = some (.file generatedText) ∧ WidthsMatch t.shared ['m'] 1 1 := by
  have all : (stepsChecked (System.step handle) (fun _ _ => true)
      (start onlyMain (oneChild 1) : Children) (List.replicate 16 0)).map widthsSeen =
      some (true,true,.ok [1]) := by
    decide +kernel
  obtain ⟨t,reached,seen⟩ := Option.map_eq_some_iff.mp all
  simp only [widthsSeen,Prod.mk.injEq,decide_eq_true_eq] at seen
  have run : Run (System.step handle) (fun _ _ => True) (start onlyMain (oneChild 1)) _ t :=
    runChecked (fun _ _ _ => trivial) reached
  have done : ∀ k < 1 + 0, (t.procs k).returned := by
    intro k below
    rw [show k = 0 by omega]
    exact seen.1
  have ones : ∀ name ∈ [['y']], (1 : Int) = 1 ∧ Harmless .dOut name := by
    intro name inside
    rw [List.mem_singleton.mp inside]
    exact ⟨rfl,harmlessPlain (by decide) (by decide) (by decide) .dOut⟩
  obtain ⟨inNmemb,outNmemb,shape,fits⟩ := (widthsIffOnes (by decide) (fun _ => ⟨by decide,by decide⟩)
    (fun _ _ => oneChildSupervised 1) onlyMainFresh run done seen.2.1).mpr
    ⟨ones,harmlessPlain (by decide) (by decide) (by decide) .dIn⟩
  obtain ⟨rfl,rfl⟩ := setWidthsInjective
    (List.append_cancel_left (List.append_cancel_right (shape : generatedText = _)))
  exact ⟨_,t,run,seen.2.1,fits⟩

/- One store of two numbers: the generated model declares a width of 1. -/
theorem pairTooWide : ∃ schedule t, Run (System.step handle) (fun _ _ => True)
    (start onlyMain (oneChild 2)) schedule t ∧ (t.procs 0).returned ∧
    t.shared (templatePath ['m']) = some (.file generatedText) ∧
    Walk t.shared [piDir,['m'],piTrainDir] [dataFile ['m'] (piTrainDir,0)] ∧
    (Dataset.init t.shared [dataFile ['m'] (piTrainDir,0)]).map (fun ds => ds.dsOut.map List.length) =
      .ok [2] := by
  have all : (stepsChecked (System.step handle) (fun _ _ => true)
      (start onlyMain (oneChild 2) : Children) (List.replicate 16 0)).map widthsSeen =
      some (true,true,.ok [2]) := by
    decide +kernel
  obtain ⟨t,reached,seen⟩ := Option.map_eq_some_iff.mp all
  simp only [widthsSeen,Prod.mk.injEq,decide_eq_true_eq] at seen
  have run : Run (System.step handle) (fun _ _ => True) (start onlyMain (oneChild 2)) _ t :=
    runChecked (fun _ _ _ => trivial) reached
  have end_ := runFinished (by decide) (fun _ _ => (oneChildSupervised 2).one) onlyMainFresh run
    (fun k below => by rw [show k = 0 by omega]; exact seen.1)
  have walk := trainWalk end_ (clearGenerated end_ seen.2.1)
    (allWritten end_ (fun _ _ => oneChildSupervised 2))
  exact ⟨_,t,run,seen.1,seen.2.1,walk,seen.2.2⟩

end Autonomizer.Widths
