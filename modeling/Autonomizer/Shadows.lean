import Mathlib
import Autonomizer.Emission
import Autonomizer.Propagation

/-! What is known, while a block is instrumented, of the temporaries of the new block and of
what they hold when it runs. -/
namespace Autonomizer.Shadows
open Bits Emission Total Translate VexIR

/- The new block, the temporaries of a machine that runs it, and those it has assigned. -/
structure Config where
  mce : MCEnv
  tmp : IRTemp → Val
  known : Set IRTemp

def Reads (known : Set IRTemp) : IRAtom → Prop
  | .rdTmp t => t ∈ known
  | .const _ => True

def ofKind (mce : MCEnv) : TempKind → IRAtom → Bool
  | .orig,a => isOriginalAtom mce a
  | .vSh,a => isShadowAtom mce a

structure AtomIs (c : Config) (a : IRAtom) (kind : TempKind) (v : Val) : Prop where
  kinded : ofKind c.mce kind a = true
  type : typeOfIRAtom c.mce.tyenv a = some v.ty
  value : evalAtom c.tmp a = v
  known : Reads c.known a

inductive Fact where
  | atom (a : IRAtom) (kind : TempKind) (v : Val)
  | shadow (a : IRAtom) (v : Val)
  | binds (t u : IRTemp)

def Fact.Holds (c : Config) : Fact → Prop
  | .atom a kind v => AtomIs c a kind v
  | .shadow (.rdTmp t) v => ∃ u, c.mce.tmpMap[t]? = some ⟨.orig,some u⟩ ∧ AtomIs c (.rdTmp u) .vSh v
  | .shadow (.const con) v => v = ⟨shadowTypeV (typeOfIRConst con),0⟩
  | .binds t u => c.mce.tmpMap[t]? = some ⟨.orig,some u⟩

inductive Todo where
  | unset (t : IRTemp) (kind : TempKind) (ty : IRType)
  | unshadowed (t : IRTemp) (ty : IRType)

def Todo.Holds (c : Config) : Todo → Prop
  | .unset t kind ty => kindOf c.mce t = some kind ∧ c.mce.tyenv[t]? = some ty ∧ t ∉ c.known
  | .unshadowed t ty => c.mce.tmpMap[t]? = some ⟨.orig,none⟩ ∧ c.mce.tyenv[t]? = some ty

structure Sound (env : Setting) (c : Config) : Prop where
  setting : c.mce.setting = env
  lengths : c.mce.tmpMap.length = c.mce.tyenv.length
  known : ∀ t ∈ c.known, t < c.mce.tyenv.length

structure Holds (env : Setting) (Γ : Set Fact) (U : Set Todo) (c : Config) : Prop where
  sound : Sound env c
  facts : ∀ φ ∈ Γ, φ.Holds c
  todo : ∀ φ ∈ U, φ.Holds c

/- The atom has this kind and this value by the facts. -/
class Has (Γ : Set Fact) (a : IRAtom) (kind : TempKind) (v : outParam Val) : Prop where
  has : ∀ c, (∀ φ ∈ Γ, φ.Holds c) → AtomIs c a kind v

class HasShadow (Γ : Set Fact) (a : IRAtom) (v : outParam Val) : Prop where
  has : ∀ c, (∀ φ ∈ Γ, φ.Holds c) → (Fact.shadow a v).Holds c

section
variable {Γ : Set Fact} {a : IRAtom} {kind : TempKind} {v : Val}

instance : Has (insert (.atom a kind v) Γ) a kind v where
  has _ facts := facts _ (Set.mem_insert ..)

instance (priority := low) hasOlder {φ : Fact} [older : Has Γ a kind v] : Has (insert φ Γ) a kind v where
  has c facts := older.has c fun ψ inside => facts ψ (Set.mem_insert_of_mem _ inside)

instance hasConst {con : IRConst} : Has Γ (.const con) kind ⟨typeOfIRConst con,constBits con⟩ where
  has c _ := ⟨by cases kind <;> rfl,rfl,rfl,trivial⟩

instance : HasShadow (insert (.shadow a v) Γ) a v where
  has _ facts := facts _ (Set.mem_insert ..)

instance (priority := low) shadowOlder {φ : Fact} [older : HasShadow Γ a v] : HasShadow (insert φ Γ) a v where
  has c facts := older.has c fun ψ inside => facts ψ (Set.mem_insert_of_mem _ inside)

instance shadowConst {con : IRConst} : HasShadow Γ (.const con) ⟨shadowTypeV (typeOfIRConst con),0⟩ where
  has _ _ := rfl

end

class HasValue (Γ : Set Fact) (a : IRAtom) (v : outParam Val) : Prop where
  has : ∀ c, (∀ φ ∈ Γ, φ.Holds c) → typeOfIRAtom c.mce.tyenv a = some v.ty ∧ evalAtom c.tmp a = v

instance valueShadow {Γ : Set Fact} {a : IRAtom} {v : Val} [known : Has Γ a .vSh v] : HasValue Γ a v where
  has c facts := ⟨(known.has c facts).type,(known.has c facts).value⟩

instance (priority := low) valueOriginal {Γ : Set Fact} {a : IRAtom} {v : Val} [known : Has Γ a .orig v] :
    HasValue Γ a v where
  has c facts := ⟨(known.has c facts).type,(known.has c facts).value⟩

class Kinded (va a : IRAtom) : Prop where
  same : sameKindedAtoms va a = true

class Paired (va a : IRAtom) : Prop extends Kinded va a where
  zero : ∀ w, isZero w a = true → isZero w va = true

theorem sameKindedComm {a b : IRAtom} : sameKindedAtoms a b = sameKindedAtoms b a := by
  cases a <;> cases b <;> rfl

/- Nothing that has been assigned is assigned again, and no shadow is replaced. -/
structure Extends (c d : Config) : Prop where
  types : ∀ (t : IRTemp) ty, c.mce.tyenv[t]? = some ty → d.mce.tyenv[t]? = some ty
  kinds : ∀ t kind, kindOf c.mce t = some kind → kindOf d.mce t = some kind
  shadows : ∀ (t : IRTemp) u, c.mce.tmpMap[t]? = some ⟨.orig,some u⟩ → d.mce.tmpMap[t]? = some ⟨.orig,some u⟩
  values : ∀ t ∈ c.known, d.tmp t = c.tmp t
  known : c.known ⊆ d.known

section
variable {c d : Config} {a : IRAtom} {kind : TempKind} {v : Val}

theorem kindedTemp {mce : MCEnv} {t : IRTemp} : ofKind mce kind (.rdTmp t) = true ↔ kindOf mce t = some kind := by
  cases kind <;> exact decide_eq_true_iff

theorem atomKept (extends_ : Extends c d) (here : AtomIs c a kind v) : AtomIs d a kind v := by
  cases a with
  | const con =>
    have value : evalAtom c.tmp (.const con) = v := here.value
    exact ⟨by cases kind <;> rfl,here.type,value,trivial⟩
  | rdTmp t =>
    have type : c.mce.tyenv[t]? = some v.ty := here.type
    refine ⟨kindedTemp.mpr (extends_.kinds t kind (kindedTemp.mp here.kinded)),extends_.types t _ type,?_,
      extends_.known here.known⟩
    rw [← here.value]
    exact extends_.values t here.known

theorem factKept (extends_ : Extends c d) {φ : Fact} (here : φ.Holds c) : φ.Holds d := by
  cases φ with
  | atom a kind v => exact atomKept extends_ here
  | shadow a v =>
    cases a with
    | const con => exact here
    | rdTmp t =>
      obtain ⟨u,entry,shadow⟩ := here
      exact ⟨u,extends_.shadows t u entry,atomKept extends_ shadow⟩
  | binds t u => exact extends_.shadows t u here

def StillOpen (c d : Config) : Todo → Prop
  | .unset t _ _ => t ∉ d.known
  | .unshadowed t _ => d.mce.tmpMap[t]? = c.mce.tmpMap[t]?

theorem todoKept (extends_ : Extends c d) {φ : Todo} (open_ : StillOpen c d φ) (here : φ.Holds c) : φ.Holds d := by
  cases φ with
  | unset t kind ty => exact ⟨extends_.kinds t kind here.1,extends_.types t ty here.2.1,open_⟩
  | unshadowed t ty => exact ⟨open_.trans here.1,extends_.types t ty here.2⟩

theorem holdsKept {env : Setting} {Γ : Set Fact} {U V : Set Todo} (holds : Holds env Γ U c) (sound : Sound env d)
    (extends_ : Extends c d) (still : ∀ φ ∈ V, φ ∈ U ∧ StillOpen c d φ) : Holds env Γ V d where
  sound := sound
  facts φ inside := factKept extends_ (holds.facts φ inside)
  todo φ inside := todoKept extends_ (still φ inside).2 (holds.todo φ (still φ inside).1)

end

theorem holdsInsert {env : Setting} {Γ : Set Fact} {U : Set Todo} {c : Config} {φ : Fact} (holds : Holds env Γ U c)
    (here : φ.Holds c) : Holds env (insert φ Γ) U c where
  sound := holds.sound
  facts ψ inside := by
    rcases Set.mem_insert_iff.mp inside with rfl | older
    · exact here
    · exact holds.facts ψ older
  todo := holds.todo

section
variable {σ α β : Type} (prims : Prims) (calls : Calls Helper σ) (env : Setting)

def writer : Writer MCEnv (IRStmt Helper) (Machine σ) where
  code mce := mce.stmts
  run st s :=
    match exec prims calls st s with
    | some (none,t) => some t
    | _ => none

def At (Γ : Set Fact) (U : Set Todo) (w : World σ) (mce : MCEnv) (s : Machine σ) : Prop :=
  s.world = w ∧ ∃ known, Holds env Γ U ⟨mce,s.tmp,known⟩

/- The program writes code that takes one world to the other, and what is known of it after. -/
def Does (Γ : Set Fact) (U : Set Todo) (w : World σ) (p : Build α) (Γ' : α → Set Fact) (U' : Set Todo)
    (w' : World σ) : Prop :=
  Emits (writer prims calls) (At env Γ U w) p (fun a => At env (Γ' a) U' w')

def Yields (Γ : Set Fact) (U : Set Todo) (w : World σ) (p : Build IRAtom) (kind : TempKind) (v : Val) : Prop :=
  Does prims calls env Γ U w p (fun a => insert (.atom a kind v) Γ) U w

variable {prims calls env} {Γ Δ : Set Fact} {U U' U'' : Set Todo} {w w' w'' : World σ} {p : Build α}
  {f : α → Build β} {Γ' : α → Set Fact} {Γ'' : β → Set Fact}

theorem atLess (less : Δ ⊆ Γ) (fewer : U' ⊆ U) {mce : MCEnv} {s : Machine σ} (here : At env Γ U w mce s) :
    At env Δ U' w mce s := by
  obtain ⟨world,known,holds⟩ := here
  exact ⟨world,known,holds.sound,fun φ inside => holds.facts φ (less inside),
    fun φ inside => holds.todo φ (fewer inside)⟩

theorem doesLess (does : Does prims calls env Γ U w p Γ' U' w') {Δ' : α → Set Fact} (less : ∀ a, Δ' a ⊆ Γ' a) :
    Does prims calls env Γ U w p Δ' U' w' :=
  emitsMono does (fun _ _ here => here) fun a _ _ => atLess (less a) subset_rfl

theorem doesBind (first : Does prims calls env Γ U w p Γ' U' w')
    (next : ∀ a, Does prims calls env (Γ' a) U' w' (f a) Γ'' U'' w'') :
    Does prims calls env Γ U w (p >>= f) Γ'' U'' w'' :=
  emitsBind first next

section
variable {kind kind' : TempKind} {v v' : Val} {q : Build IRAtom} {g : IRAtom → Build IRAtom}

theorem yieldsBind (first : Yields prims calls env Γ U w q kind v)
    (next : ∀ a, Yields prims calls env (insert (.atom a kind v) Γ) U w (g a) kind' v') :
    Yields prims calls env Γ U w (q >>= g) kind' v' :=
  doesBind first fun a => doesLess (next a) fun _ => Set.insert_subset_insert (Set.subset_insert ..)

theorem yieldsSame (yields : Yields prims calls env Γ U w q kind v) (same : v = v') :
    Yields prims calls env Γ U w q kind v' := same ▸ yields

theorem yieldsPure {a : IRAtom} [known : Has Γ a kind v] : Yields prims calls env Γ U w (pure a) kind v := by
  refine emitsPure ?_
  intro mce s here
  obtain ⟨world,set,holds⟩ := here
  exact ⟨world,set,holdsInsert holds (known.has _ holds.facts)⟩

end

theorem doesKnow {a : IRAtom} {kind : TempKind} {v : Val} [known : Has Γ a kind v]
    (does : Does prims calls env (insert (.atom a kind v) Γ) U w p Γ' U' w') :
    Does prims calls env Γ U w p Γ' U' w' := by
  refine emitsMono does ?_ fun _ _ _ here => here
  intro mce s here
  obtain ⟨world,set,holds⟩ := here
  exact ⟨world,set,holdsInsert holds (known.has _ holds.facts)⟩

theorem doesRead (K : α → Prop) (Γ' : α → Set Fact)
    (reads : ∀ c, Holds env Γ U c → ∃ a, p c.mce = some (a,c.mce) ∧ K a ∧ Holds env (Γ' a) U c)
    (next : ∀ a, K a → Does prims calls env (Γ' a) U w (f a) Γ'' U' w') :
    Does prims calls env Γ U w (p >>= f) Γ'' U' w' := by
  refine emitsRead ?_ next
  intro mce s here
  obtain ⟨world,known,holds⟩ := here
  obtain ⟨a,built,has,after⟩ := reads ⟨mce,s.tmp,known⟩ holds
  exact ⟨a,built,has,world,known,after⟩

theorem doesGet {f : MCEnv → Build β} (next : ∀ mce, mce.setting = env → Does prims calls env Γ U w (f mce) Γ'' U' w') :
    Does prims calls env Γ U w (get >>= f) Γ'' U' w' :=
  doesRead (fun mce => mce.setting = env) (fun _ => Γ) (fun c holds => ⟨c.mce,rfl,holds.sound.setting,holds⟩) next

theorem typeRuns {mce : MCEnv} {e : IRExpr} {ty : IRType} (type : typeOfIRExpr mce.tyenv e = some ty) :
    typeOf e mce = some (ty,mce) := by
  show demand (typeOfIRExpr mce.tyenv e) mce = _
  rw [type]
  rfl

theorem doesTypeOf {f : IRType → Build β} {a : IRAtom} {v : Val} [known : HasValue Γ a v]
    (next : Does prims calls env Γ U w (f v.ty) Γ'' U' w') :
    Does prims calls env Γ U w (typeOf (.atom a) >>= f) Γ'' U' w' := by
  refine doesRead (fun ty => ty = v.ty) (fun _ => Γ) ?_ fun ty same => same ▸ next
  intro c holds
  exact ⟨v.ty,typeRuns (known.has c holds.facts).1,rfl,holds⟩

section
variable {f : Unit → Build β} {a : IRAtom} {v : Val}

theorem doesAssert {c : Prop} [Decidable c] (holds : c) (next : Does prims calls env Γ U w (f ()) Γ'' U' w') :
    Does prims calls env Γ U w (assert c >>= f) Γ'' U' w' := by
  rw [assert,if_pos holds]
  exact next

theorem doesKinded (k : TempKind) (known : Has Γ a k v) (next : Does prims calls env Γ U w (f ()) Γ'' U' w') :
    Does prims calls env Γ U w ((do let mce ← get; assert (ofKind mce k a)) >>= f) Γ'' U' w' := by
  refine doesRead (fun _ => True) (fun _ => Γ) ?_ fun _ _ => next
  intro c holds
  refine ⟨(),?_,trivial,holds⟩
  show (assert (ofKind c.mce k a = true) : Build Unit) c.mce = _
  rw [assert,if_pos (known.has c holds.facts).kinded]
  rfl

theorem doesShadow [known : Has Γ a .vSh v] (next : Does prims calls env Γ U w (f ()) Γ'' U' w') :
    Does prims calls env Γ U w (assertShadow a >>= f) Γ'' U' w' := doesKinded .vSh known next

theorem doesOriginal [known : Has Γ a .orig v] (next : Does prims calls env Γ U w (f ()) Γ'' U' w') :
    Does prims calls env Γ U w (assertOriginal a >>= f) Γ'' U' w' := doesKinded .orig known next

end

def grown (mce : MCEnv) (ty : IRType) (kind : TempKind) : MCEnv :=
  { mce with tyenv := mce.tyenv ++ [ty],tmpMap := mce.tmpMap ++ [⟨kind,none⟩] }

theorem newTempRuns {mce : MCEnv} (lengths : mce.tmpMap.length = mce.tyenv.length) (ty : IRType) (kind : TempKind) :
    newTemp ty kind mce = some (mce.tyenv.length,grown mce ty kind) := by
  show ((assert (mce.tmpMap.length = mce.tyenv.length) : Build Unit) (grown mce ty kind)).bind _ = _
  rw [assert,if_pos lengths]
  rfl

section
variable {c : Config} {ty : IRType} {kind : TempKind}

theorem inEnv {mce : MCEnv} (lengths : mce.tmpMap.length = mce.tyenv.length) {t : IRTemp} {ent : TempMapEnt}
    (here : mce.tmpMap[t]? = some ent) : t < mce.tyenv.length :=
  lengths ▸ (List.getElem?_eq_some_iff.mp here).1

theorem grownMap {mce : MCEnv} {t : IRTemp} {ent : TempMapEnt} (here : mce.tmpMap[t]? = some ent) :
    (grown mce ty kind).tmpMap[t]? = some ent :=
  (List.getElem?_append_left (List.getElem?_eq_some_iff.mp here).1).trans here

theorem grownExtends : Extends c { c with mce := grown c.mce ty kind } where
  types t ty here := (List.getElem?_append_left (List.getElem?_eq_some_iff.mp here).1).trans here
  kinds t kind here := by
    obtain ⟨ent,there,same⟩ := Option.map_eq_some_iff.mp here
    exact Option.map_eq_some_iff.mpr ⟨ent,grownMap there,same⟩
  shadows t u here := grownMap here
  values _ _ := rfl
  known := subset_rfl

theorem grownSound (sound : Sound env c) : Sound env { c with mce := grown c.mce ty kind } where
  setting := sound.setting
  lengths := by
    show (c.mce.tmpMap ++ [_]).length = (c.mce.tyenv ++ [_]).length
    rw [List.length_append,List.length_append,sound.lengths]
    rfl
  known t inside := by
    show t < (c.mce.tyenv ++ [_]).length
    rw [List.length_append]
    exact Nat.lt_add_right 1 (sound.known t inside)

theorem grownKept (holds : Holds env Γ U c) : Holds env Γ U { c with mce := grown c.mce ty kind } := by
  refine holdsKept holds (grownSound holds.sound) grownExtends fun φ inside => ⟨inside,?_⟩
  have here := holds.todo φ inside
  cases φ with
  | unset t kind ty => exact here.2.2
  | unshadowed t ty => exact (grownMap here.1).trans here.1.symm

theorem grownUnset (sound : Sound env c) : (Todo.unset c.mce.tyenv.length kind ty).Holds { c with mce := grown c.mce ty kind } := by
  refine ⟨?_,List.getElem?_concat_length,fun inside => (lt_irrefl _ (sound.known _ inside)).elim⟩
  have entry : (grown c.mce ty kind).tmpMap[c.mce.tyenv.length]? = some ⟨kind,none⟩ := by
    show (c.mce.tmpMap ++ [_])[c.mce.tyenv.length]? = _
    rw [← sound.lengths,List.getElem?_concat_length]
  exact Option.map_eq_some_iff.mpr ⟨_,entry,rfl⟩

theorem todoInsert {φ : Todo} (holds : Holds env Γ U c) (here : φ.Holds c) : Holds env Γ (insert φ U) c where
  sound := holds.sound
  facts := holds.facts
  todo ψ inside := by
    rcases Set.mem_insert_iff.mp inside with rfl | older
    · exact here
    · exact holds.todo ψ older

end

section
variable {c : Config} {t : IRTemp} {kind : TempKind} {v : Val} {stmts : List (IRStmt Helper)}

def Config.assigned (c : Config) (t : IRTemp) (v : Val) (stmts : List (IRStmt Helper)) : Config where
  mce := { c.mce with stmts := stmts }
  tmp := Function.update c.tmp t v
  known := insert t c.known

theorem assignedExtends (unset : t ∉ c.known) : Extends c (c.assigned t v stmts) where
  types _ _ here := here
  kinds _ _ here := here
  shadows _ _ here := here
  values u inside := Function.update_of_ne (fun same : u = t => unset (same ▸ inside)) ..
  known := Set.subset_insert ..

theorem assignedSound (sound : Sound env c) (inside : t < c.mce.tyenv.length) : Sound env (c.assigned t v stmts) where
  setting := sound.setting
  lengths := sound.lengths
  known u there := by
    rcases Set.mem_insert_iff.mp there with same | older
    · exact same ▸ inside
    · exact sound.known u older

/- The other temporaries that wait. -/
def others (t : IRTemp) (U : Set Todo) : Set Todo := {φ | φ ∈ U ∧ ∀ kind ty, φ ≠ .unset t kind ty}

theorem assignedHolds (holds : Holds env Γ U c) (unset : (Todo.unset t kind v.ty).Holds c) :
    Holds env (insert (.atom (.rdTmp t) kind v) Γ) (others t U) (c.assigned t v stmts) := by
  obtain ⟨kinded,type,fresh⟩ := unset
  have sound : Sound env (c.assigned t v stmts) := assignedSound holds.sound (List.getElem?_eq_some_iff.mp type).1
  refine holdsInsert (holdsKept holds sound (assignedExtends fresh) fun φ inside => ⟨inside.1,?_⟩) ?_
  · have here := holds.todo φ inside.1
    cases φ with
    | unset u kind ty =>
      intro there
      rcases Set.mem_insert_iff.mp there with same | older
      · exact inside.2 kind ty (same ▸ rfl)
      · exact here.2.2 older
    | unshadowed u ty => rfl
  · exact ⟨kindedTemp.mpr kinded,type,Function.update_self ..,Set.mem_insert ..⟩

theorem othersNew (holds : Holds env Γ U c) : U ⊆ others c.mce.tyenv.length U := by
  intro φ inside
  refine ⟨inside,fun kind ty same => ?_⟩
  have here := holds.todo φ inside
  rw [same] at here
  exact lt_irrefl _ (List.getElem?_eq_some_iff.mp here.2.1).1

end

def Denotes (prims : Prims) (Γ : Set Fact) (w : World σ) (e : IRExpr) (v : Val) : Prop :=
  ∀ c, (∀ φ ∈ Γ, φ.Holds c) → typeOfIRExpr c.mce.tyenv e = some v.ty ∧ eval prims ⟨c.tmp,w⟩ e = v

theorem doesSet {st : IRStmt Helper} {t : IRTemp} {kind : TempKind} {v : Val} (waits : .unset t kind v.ty ∈ U)
    (runs : ∀ c, (∀ φ ∈ Γ, φ.Holds c) → exec prims calls st ⟨c.tmp,w⟩ = some (none,⟨Function.update c.tmp t v,w'⟩)) :
    Does prims calls env Γ U w (stmt st) (fun _ => insert (.atom (.rdTmp t) kind v) Γ) (others t U) w' := by
  refine emitsWrite (i := st) (fun _ => rfl) ?_
  intro mce s here
  obtain ⟨world,known,holds⟩ := here
  have ran := runs ⟨mce,s.tmp,known⟩ holds.facts
  have same : (⟨s.tmp,w⟩ : Machine σ) = s := by rw [← world]
  refine ⟨⟨Function.update s.tmp t v,w'⟩,?_,rfl,insert t known,assignedHolds holds (holds.todo _ waits)⟩
  show (match exec prims calls st s with
    | some (none,t) => some t
    | _ => none) = _
  rw [← same,ran]

theorem doesStmt {st : IRStmt Helper}
    (runs : ∀ c, (∀ φ ∈ Γ, φ.Holds c) → exec prims calls st ⟨c.tmp,w⟩ = some (none,⟨c.tmp,w'⟩)) :
    Does prims calls env Γ U w (stmt st) (fun _ => Γ) U w' := by
  refine emitsWrite (i := st) (fun _ => rfl) ?_
  intro mce s here
  obtain ⟨world,known,holds⟩ := here
  have ran := runs ⟨mce,s.tmp,known⟩ holds.facts
  have same : (⟨s.tmp,w⟩ : Machine σ) = s := by rw [← world]
  refine ⟨⟨s.tmp,w'⟩,?_,rfl,known,?_⟩
  · show (match exec prims calls st s with
      | some (none,t) => some t
      | _ => none) = _
    rw [← same,ran]
  · exact holdsKept holds ⟨holds.sound.setting,holds.sound.lengths,holds.sound.known⟩
      ⟨fun _ _ here => here,fun _ _ here => here,fun _ _ here => here,fun _ _ => rfl,subset_rfl⟩
      fun φ inside => ⟨inside,by
        cases φ with
        | unset t kind ty => exact (holds.todo _ inside).2.2
        | unshadowed t ty => rfl⟩

theorem doesAssign {t : IRTemp} {k : TempKind} {e : IRExpr} {v : Val} (waits : .unset t k v.ty ∈ U)
    (denotes : Denotes prims Γ w e v) :
    Does prims calls env Γ U w (assign t e) (fun _ => insert (.atom (.rdTmp t) k v) Γ) (others t U) w := by
  refine doesSet waits fun c facts => ?_
  show some (none,Machine.set _ t (eval prims ⟨c.tmp,w⟩ e)) = _
  rw [(denotes c facts).2]
  rfl

def catKind : Cat → TempKind
  | .v => .vSh
  | .c => .orig

theorem doesAssignNew {cat : Cat} {ty : IRType} {e : IRExpr} {v : Val} (denotes : Denotes prims Γ w e v)
    (typed : v.ty = ty) : Yields prims calls env Γ U w (assignNew cat ty e) (catKind cat) v := by
  intro mce s here
  obtain ⟨world,known,holds⟩ := here
  obtain ⟨type,value⟩ := denotes _ holds.facts
  let c : Config := ⟨mce,s.tmp,known⟩
  let i : IRStmt Helper := .wrTmp mce.tyenv.length e
  let d : Config := { c with mce := grown mce ty (catKind cat) }
  have same : (⟨s.tmp,w⟩ : Machine σ) = s := by rw [← world]
  refine ⟨.rdTmp mce.tyenv.length,(d.assigned mce.tyenv.length v (mce.stmts ++ [i])).mce,s.set mce.tyenv.length v,
    ⟨?_,[i],rfl,?_⟩,world,insert mce.tyenv.length known,?_⟩
  · show (typeOf e mce).bind _ = _
    rw [typeRuns type]
    show ((assert (v.ty = ty) : Build Unit) mce).bind _ = _
    rw [assert,if_pos typed]
    show (newTemp ty _ mce).bind _ = _
    rw [newTempRuns holds.sound.lengths]
    cases cat <;> rfl
  · show some (s.set mce.tyenv.length (eval prims s e)) = _
    rw [← same,value]
  · subst typed
    have after : Holds env (insert (.atom (.rdTmp mce.tyenv.length) (catKind cat) v) Γ) (others mce.tyenv.length U)
        (d.assigned mce.tyenv.length v (mce.stmts ++ [i])) :=
      assignedHolds (grownKept holds) (grownUnset holds.sound)
    exact ⟨after.sound,after.facts,fun φ inside => after.todo φ (othersNew holds inside)⟩

section
variable {a b : IRAtom} {u v : Val} {ty t₁ t₂ : IRType} {x y : Value}

theorem denotesUnop (op : Unop) [known : HasValue Γ a ⟨t₁,x⟩] :
    Denotes prims Γ w (.unop op a) ⟨op.type.1,op.eval prims x⟩ := by
  intro c facts
  refine ⟨rfl,?_⟩
  rw [eval,(known.has c facts).2]

theorem denotesBinop (op : Binop) [first : HasValue Γ a ⟨t₁,x⟩] [second : HasValue Γ b ⟨t₂,y⟩] :
    Denotes prims Γ w (.binop op a b) ⟨op.type.1,op.eval prims x y⟩ := by
  intro c facts
  refine ⟨rfl,?_⟩
  rw [eval,(first.has c facts).2,(second.has c facts).2]

theorem denotesAtom [known : HasValue Γ a v] : Denotes prims Γ w (.atom a) v :=
  fun c facts => known.has c facts

theorem unopV (op : Unop) [HasValue Γ a ⟨t₁,x⟩] (typed : op.type.1 = ty) :
    Yields prims calls env Γ U w (assignNew .v ty (.unop op a)) .vSh ⟨op.type.1,op.eval prims x⟩ :=
  doesAssignNew (denotesUnop op) typed

theorem binopV (op : Binop) [HasValue Γ a ⟨t₁,x⟩] [HasValue Γ b ⟨t₂,y⟩] (typed : op.type.1 = ty) :
    Yields prims calls env Γ U w (assignNew .v ty (.binop op a b)) .vSh ⟨op.type.1,op.eval prims x y⟩ :=
  doesAssignNew (denotesBinop op) typed

theorem atomV [HasValue Γ a v] (typed : v.ty = ty) :
    Yields prims calls env Γ U w (assignNew .v ty (.atom a)) .vSh v :=
  doesAssignNew denotesAtom typed

end

section
variable {f : IRAtom → Build β} {v : Val}

theorem doesFind {t : IRTemp} [known : HasShadow Γ (.rdTmp t) v] {f : IRTemp → Build β}
    (next : ∀ u, Does prims calls env (insert (.atom (.rdTmp u) .vSh v) Γ) U w (f u) Γ'' U' w') :
    Does prims calls env Γ U w (findShadowTmpV t >>= f) Γ'' U' w' := by
  refine doesRead (fun _ => True) (fun u => insert (.atom (.rdTmp u) .vSh v) Γ) ?_ fun u _ => next u
  intro c holds
  obtain ⟨u,entry,shadow⟩ := known.has c holds.facts
  refine ⟨u,?_,trivial,holdsInsert holds shadow⟩
  show (demand c.mce.tmpMap[t]? c.mce).bind _ = _
  rw [entry]
  rfl

theorem definedConst (con : IRConst) : ∃ zero, definedAtom (shadowTypeV (typeOfIRConst con)) = pure (.const zero) ∧
    typeOfIRConst zero = shadowTypeV (typeOfIRConst con) ∧ constBits zero = 0 ∧
    ∀ w, isZero w (.const con) = true → isZero w (.const zero) = true := by
  cases con with
  | u1 n => exact ⟨.u1 false,rfl,rfl,rfl,fun w other => by cases w <;> cases other⟩
  | u8 n => exact ⟨.u8 0,rfl,rfl,rfl,fun w other => by cases w <;> cases other⟩
  | u16 n => exact ⟨.u16 0,rfl,rfl,rfl,fun w other => by cases w <;> cases other⟩
  | u32 n => exact ⟨.u32 0,rfl,rfl,rfl,fun w zero => by cases w <;> simp_all [isZero]⟩
  | u64 n => exact ⟨.u64 0,rfl,rfl,rfl,fun w zero => by cases w <;> simp_all [isZero]⟩
  | f32i n => exact ⟨.u32 0,rfl,rfl,rfl,fun w other => by cases w <;> cases other⟩
  | f64i n => exact ⟨.u64 0,rfl,rfl,rfl,fun w other => by cases w <;> cases other⟩
  | v128 n => exact ⟨.v128 0,rfl,rfl,by decide,fun w other => by cases w <;> cases other⟩
  | v256 n => exact ⟨.v256 0,rfl,rfl,by decide,fun w other => by cases w <;> cases other⟩

theorem doesAtom2vbits {a : IRAtom} [known : HasShadow Γ a v]
    (next : ∀ va, Paired va a → Does prims calls env (insert (.atom va .vSh v) Γ) U w (f va) Γ'' U' w') :
    Does prims calls env Γ U w (atom2vbits a >>= f) Γ'' U' w' := by
  cases a with
  | rdTmp t =>
    show Does prims calls env Γ U w ((findShadowTmpV t >>= fun u => pure (.rdTmp u)) >>= f) Γ'' U' w'
    rw [bind_assoc]
    refine doesFind fun u => ?_
    rw [pure_bind]
    exact next _ { same := rfl, zero := fun w other => by cases other }
  | const con =>
    obtain ⟨zero,defined,type,bits,zeros⟩ := definedConst con
    show Does prims calls env Γ U w (definedAtom (shadowTypeV (typeOfIRConst con)) >>= f) Γ'' U' w'
    rw [defined,pure_bind]
    intro mce s here
    obtain ⟨world,set,holds⟩ := here
    have same : v = ⟨typeOfIRConst zero,constBits zero⟩ := by
      rw [type,bits]
      exact known.has _ holds.facts
    subst same
    exact doesKnow (next _ { same := rfl, zero := zeros }) mce s ⟨world,set,holds⟩

end

section
variable {t : IRTemp} {ty : IRType}

def bound (mce : MCEnv) (t : IRTemp) (ty : IRType) : MCEnv :=
  { grown mce ty .vSh with tmpMap := (grown mce ty .vSh).tmpMap.set t ⟨.orig,some mce.tyenv.length⟩ }

theorem findRuns {mce : MCEnv} (lengths : mce.tmpMap.length = mce.tyenv.length)
    (entry : mce.tmpMap[t]? = some ⟨.orig,none⟩) (type : mce.tyenv[t]? = some ty) :
    findShadowTmpV t mce = some (mce.tyenv.length,bound mce t (shadowTypeV ty)) := by
  show (demand mce.tmpMap[t]? mce).bind _ = _
  rw [entry]
  show (typeOfTemp t mce).bind _ = _
  have typed : typeOfTemp t mce = some (ty,mce) := by
    show demand mce.tyenv[t]? mce = _
    rw [type]
    rfl
  rw [typed]
  show (newTemp (shadowTypeV ty) .vSh mce).bind _ = _
  rw [newTempRuns lengths]
  rfl

section
variable {c : Config}

theorem boundMap (entry : c.mce.tmpMap[t]? = some ⟨.orig,none⟩) (u : IRTemp) :
    (bound c.mce t ty).tmpMap[u]? =
      if t = u then some ⟨.orig,some c.mce.tyenv.length⟩ else (grown c.mce ty .vSh).tmpMap[u]? := by
  have inside : t < (grown c.mce ty .vSh).tmpMap.length := (List.getElem?_eq_some_iff.mp (grownMap entry)).1
  show ((grown c.mce ty .vSh).tmpMap.set t _)[u]? = _
  rw [List.getElem?_set,if_pos inside]

theorem boundExtends (entry : c.mce.tmpMap[t]? = some ⟨.orig,none⟩) :
    Extends c { c with mce := bound c.mce t ty } where
  types u ty here := (List.getElem?_append_left (List.getElem?_eq_some_iff.mp here).1).trans here
  kinds u kind here := by
    show ((bound c.mce t ty).tmpMap[u]?).map (·.kind) = _
    rw [boundMap entry]
    by_cases same : t = u
    · rw [kindOf,← same,entry] at here
      rw [if_pos same]
      exact here
    · rw [if_neg same]
      exact grownExtends.kinds u kind here
  shadows u v here := by
    show (bound c.mce t ty).tmpMap[u]? = _
    have different : t ≠ u := by
      rintro rfl
      rw [entry] at here
      cases here
    rw [boundMap entry,if_neg different]
    exact grownMap here
  values _ _ := rfl
  known := subset_rfl

theorem boundSound (sound : Sound env c) : Sound env { c with mce := bound c.mce t ty } where
  setting := sound.setting
  lengths := by
    show ((grown c.mce ty .vSh).tmpMap.set t _).length = _
    rw [List.length_set]
    exact (grownSound sound).lengths
  known t inside := by
    have more : Sound env { c with mce := grown c.mce ty .vSh } := grownSound sound
    exact more.known t inside

def shadowless (t : IRTemp) (U : Set Todo) : Set Todo := {φ | φ ∈ U ∧ ∀ ty, φ ≠ .unshadowed t ty}

theorem boundHolds (holds : Holds env Γ U c) (entry : c.mce.tmpMap[t]? = some ⟨.orig,none⟩) :
    Holds env (insert (.binds t c.mce.tyenv.length) Γ) (insert (.unset c.mce.tyenv.length .vSh ty) (shadowless t U))
      { c with mce := bound c.mce t ty } := by
  have sound : Sound env { c with mce := bound c.mce t ty } := boundSound holds.sound
  have kept : Holds env Γ (shadowless t U) { c with mce := bound c.mce t ty } := by
    refine holdsKept holds sound (boundExtends entry) fun φ inside => ⟨inside.1,?_⟩
    have here := holds.todo φ inside.1
    cases φ with
    | unset u kind ty => exact here.2.2
    | unshadowed u ty' =>
      show (bound c.mce t ty).tmpMap[u]? = _
      rw [boundMap entry,if_neg fun same : t = u => inside.2 ty' (same ▸ rfl)]
      exact (grownMap here.1).trans here.1.symm
  refine todoInsert (holdsInsert kept ?_) ?_
  · show (bound c.mce t ty).tmpMap[t]? = _
    rw [boundMap entry,if_pos rfl]
  · have new : (Todo.unset c.mce.tyenv.length .vSh ty).Holds { c with mce := grown c.mce ty .vSh } :=
      grownUnset holds.sound
    obtain ⟨kinded,type,fresh⟩ := new
    refine ⟨?_,type,fresh⟩
    have inside := inEnv holds.sound.lengths entry
    show ((bound c.mce t ty).tmpMap[c.mce.tyenv.length]?).map (·.kind) = _
    rw [boundMap entry,if_neg (Nat.ne_of_lt inside)]
    exact kinded

end

variable {f : IRTemp → Build β}

theorem doesFindNew (waits : .unshadowed t ty ∈ U)
    (next : ∀ u, U ⊆ others u U → Does prims calls env (insert (.binds t u) Γ)
      (insert (.unset u .vSh (shadowTypeV ty)) (shadowless t U)) w (f u) Γ'' U' w') :
    Does prims calls env Γ U w (findShadowTmpV t >>= f) Γ'' U' w' := by
  intro mce s here
  obtain ⟨world,known,holds⟩ := here
  obtain ⟨entry,type⟩ := holds.todo _ waits
  obtain ⟨a,c,t,emitted,there⟩ := next _ (othersNew holds) (bound mce t (shadowTypeV ty)) s
    ⟨world,known,boundHolds holds entry⟩
  refine ⟨a,c,t,⟨?_,emitted.ran⟩,there⟩
  show (findShadowTmpV _ mce).bind _ = _
  rw [findRuns holds.sound.lengths entry type]
  exact emitted.built

theorem doesThen {φ : Fact} (does : Does prims calls env Γ U w p Γ' U' w')
    (follows : ∀ a c, (∀ ψ ∈ Γ' a, ψ.Holds c) → φ.Holds c) (less : ∀ a, Δ ⊆ Γ' a) (fewer : U'' ⊆ U') :
    Does prims calls env Γ U w p (fun _ => insert φ Δ) U'' w' := by
  refine emitsMono does (fun _ _ here => here) ?_
  intro a mce s here
  obtain ⟨world,known,holds⟩ := here
  have kept : Holds env Δ U'' ⟨mce,s.tmp,known⟩ :=
    ⟨holds.sound,fun ψ inside => holds.facts ψ (less a inside),fun ψ inside => holds.todo ψ (fewer inside)⟩
  exact ⟨world,known,holdsInsert kept (follows a _ holds.facts)⟩

theorem doesShade {u : IRTemp} {e : IRExpr} {v : Val} (fresh : U ⊆ others u U) (typed : v.ty = shadowTypeV ty)
    (denotes : Denotes prims (insert (.binds t u) Γ) w e v) :
    Does prims calls env (insert (.binds t u) Γ) (insert (.unset u .vSh (shadowTypeV ty)) (shadowless t U)) w (assign u e)
      (fun _ => insert (.shadow (.rdTmp t) v) Γ) (shadowless t U) w := by
  refine doesThen (doesAssign (k := .vSh) (typed ▸ Set.mem_insert ..) denotes) ?_ ?_ ?_
  · intro _ c facts
    exact ⟨u,facts (.binds t u) (.inr (.inl rfl)),facts (.atom (.rdTmp u) .vSh v) (.inl rfl)⟩
  · exact fun _ => (Set.subset_insert ..).trans (Set.subset_insert ..)
  · exact fun φ inside => ⟨.inr inside,(fresh inside.1).2⟩

theorem doesFindAssign {f : Unit → Build β} {e : IRExpr} {v : Val} (waits : .unshadowed t ty ∈ U)
    (typed : v.ty = shadowTypeV ty) (denotes : Denotes prims Γ w e v)
    (next : Does prims calls env (insert (.shadow (.rdTmp t) v) Γ) (shadowless t U) w (f ()) Γ'' U' w') :
    Does prims calls env Γ U w (findShadowTmpV t >>= fun u => assign u e >>= f) Γ'' U' w' := by
  refine doesFindNew waits fun u fresh => ?_
  refine doesBind (doesShade fresh typed ?_) fun _ => next
  exact fun c facts => denotes c fun φ inside => facts φ (Set.mem_insert_of_mem _ inside)

end

theorem doesPair {va vb a b : IRAtom} {u v x y : Val} {f : Unit → Build β} [Has Γ va .vSh u] [Has Γ vb .vSh v]
    [Has Γ a .orig x] [Has Γ b .orig y] [first : Kinded va a] [second : Kinded vb b]
    (next : Does prims calls env Γ U w (f ()) Γ'' U' w') :
    Does prims calls env Γ U w (assertPair va vb a b >>= f) Γ'' U' w' := by
  rw [assertPair]
  simp only [bind_assoc]
  refine doesShadow (doesShadow (doesOriginal (doesOriginal ?_)))
  exact doesAssert first.same (doesAssert second.same next)

/- The same where a value is computed. -/
section
variable {a b : IRAtom} {u v x y : Val} {kind : TempKind} {f : Unit → Build IRAtom}

theorem yieldsAssert {c : Prop} [Decidable c] (holds : c) (next : Yields prims calls env Γ U w (f ()) kind x) :
    Yields prims calls env Γ U w (assert c >>= f) kind x := doesAssert holds next

theorem yieldsShadow [Has Γ a .vSh v] (next : Yields prims calls env Γ U w (f ()) kind x) :
    Yields prims calls env Γ U w (assertShadow a >>= f) kind x := doesShadow next

theorem yieldsOriginal [Has Γ a .orig v] (next : Yields prims calls env Γ U w (f ()) kind x) :
    Yields prims calls env Γ U w (assertOriginal a >>= f) kind x := doesOriginal next

theorem yieldsTypeOf {f : IRType → Build IRAtom} [HasValue Γ a v] (next : Yields prims calls env Γ U w (f v.ty) kind x) :
    Yields prims calls env Γ U w (typeOf (.atom a) >>= f) kind x := doesTypeOf next

theorem yieldsGet {f : MCEnv → Build IRAtom}
    (next : ∀ mce, mce.setting = env → Yields prims calls env Γ U w (f mce) kind x) :
    Yields prims calls env Γ U w (get >>= f) kind x := doesGet next

theorem yieldsAtom2vbits {f : IRAtom → Build IRAtom} [HasShadow Γ a v]
    (next : ∀ va, Paired va a → Yields prims calls env (insert (.atom va .vSh v) Γ) U w (f va) kind x) :
    Yields prims calls env Γ U w (atom2vbits a >>= f) kind x :=
  doesAtom2vbits fun va paired => doesLess (next va paired) fun _ => Set.insert_subset_insert (Set.subset_insert ..)

theorem yieldsPair {va vb : IRAtom} [Has Γ va .vSh u] [Has Γ vb .vSh v] [Has Γ a .orig x] [Has Γ b .orig y]
    [Kinded va a] [Kinded vb b] {z : Val} (next : Yields prims calls env Γ U w (f ()) kind z) :
    Yields prims calls env Γ U w (assertPair va vb a b >>= f) kind z := doesPair next

end

def Expresses (prims : Prims) (calls : Calls Helper σ) (env : Setting) (Γ : Set Fact) (U : Set Todo) (w : World σ)
    (p : Build IRExpr) (v : Val) : Prop :=
  ∀ (γ : Type) (f : IRExpr → Build γ) (Γ' : γ → Set Fact) (U' : Set Todo) (w' : World σ),
    (∀ e Δ, Γ ⊆ Δ → Denotes prims Δ w e v → Does prims calls env Δ U w (f e) Γ' U' w') →
    Does prims calls env Γ U w (p >>= f) Γ' U' w'

section
variable {a b : IRAtom} {u v x y : Val} {kind : TempKind} {q : Build IRAtom} {e : IRExpr}

theorem expressesPure (denotes : Denotes prims Γ w e v) : Expresses prims calls env Γ U w (pure e) v :=
  fun _ _ _ _ _ next => next e Γ subset_rfl denotes

theorem expressesYields (yields : Yields prims calls env Γ U w q .vSh v) :
    Expresses prims calls env Γ U w (.atom <$> q) v := by
  intro γ f Γ' U' w' next
  rw [← bind_pure_comp,bind_assoc]
  exact doesBind yields fun a => next (.atom a) _ (Set.subset_insert ..) denotesAtom

theorem expressesSame {p : Build IRExpr} (expresses : Expresses prims calls env Γ U w p u) (same : u = v) :
    Expresses prims calls env Γ U w p v := same ▸ expresses

theorem expressesThen {f : IRAtom → Build IRExpr} (first : Yields prims calls env Γ U w q kind u)
    (then_ : ∀ a, Expresses prims calls env (insert (.atom a kind u) Γ) U w (f a) v) :
    Expresses prims calls env Γ U w (q >>= f) v := by
  intro γ g Γ' U' w' next
  rw [bind_assoc]
  refine doesBind first fun a => then_ a γ g Γ' U' w' fun e Δ more => ?_
  exact next e Δ ((Set.subset_insert ..).trans more)

theorem expressesAtom2vbits {f : IRAtom → Build IRExpr} [HasShadow Γ a u]
    (then_ : ∀ va, Paired va a → Expresses prims calls env (insert (.atom va .vSh u) Γ) U w (f va) v) :
    Expresses prims calls env Γ U w (atom2vbits a >>= f) v := by
  intro γ g Γ' U' w' next
  rw [bind_assoc]
  refine doesAtom2vbits fun va paired => then_ va paired γ g Γ' U' w' fun e Δ more => ?_
  exact next e Δ ((Set.subset_insert ..).trans more)

theorem expressesGet {f : MCEnv → Build IRExpr}
    (then_ : ∀ mce, mce.setting = env → Expresses prims calls env Γ U w (f mce) v) :
    Expresses prims calls env Γ U w (get >>= f) v := by
  intro γ g Γ' U' w' next
  rw [bind_assoc]
  exact doesGet fun mce same => then_ mce same γ g Γ' U' w' next

theorem expressesAssert {c : Prop} [Decidable c] {f : Unit → Build IRExpr} (holds : c)
    (then_ : Expresses prims calls env Γ U w (f ()) v) : Expresses prims calls env Γ U w (Total.assert c >>= f) v := by
  intro γ g Γ' U' w' next
  rw [bind_assoc]
  exact doesAssert holds (then_ γ g Γ' U' w' next)

theorem expressesPair {va vb : IRAtom} {f : Unit → Build IRExpr} [Has Γ va .vSh u] [Has Γ vb .vSh x] [Has Γ a .orig y]
    {z : Val} [Has Γ b .orig z] [Kinded va a] [Kinded vb b] (then_ : Expresses prims calls env Γ U w (f ()) v) :
    Expresses prims calls env Γ U w (assertPair va vb a b >>= f) v := by
  intro γ g Γ' U' w' next
  rw [bind_assoc]
  exact doesPair (then_ γ g Γ' U' w' next)

end

end

end Autonomizer.Shadows
