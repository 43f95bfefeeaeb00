import Mathlib
import Autonomizer.TFNNReinf

/-! TFNNReinf.init over the two things that train saves, the pickled configuration and the
checkpoint of the network. The weights are of any type. -/
namespace Autonomizer.Resume
open TFNNReinf

/- What is at modelDir + '.data'. -/
inductive DataFile (α : Type) where
  | absent
  | unreadable
  | pickle (conf : TFNNReinfConf α)

/- The checkpoint is the one that tf.train.latest_checkpoint names. -/
structure ModelDir (α ω : Type) where
  data : DataFile α
  checkpoint : Option (String × ω)

inductive LoadError where
  | ioError
  | unpicklingError
  | valueError
  deriving DecidableEq, Repr

/- sess holds the weights, which are there once they are initialised or restored. -/
structure Object (α ω : Type) where
  reinfConf : TFNNReinfConf α
  model : Option String
  sess : Option ω

section
variable {α ω : Type} [Zero α] [OfScientific α]

/- TFNNReinf(modelDir): epsilon is 0 until init. -/
def Object.new : Object α ω := ⟨TFNNReinfConf.new 0,none,none⟩

/- open and cPickle.load. -/
def readConf : DataFile α → Except LoadError (TFNNReinfConf α)
  | .absent => .error .ioError
  | .unreadable => .error .unpicklingError
  | .pickle conf => .ok conf

/- saver.restore takes no None for the path. -/
def loadModel (dir : ModelDir α ω) (self : Object α ω) : Except LoadError Unit × Object α ω :=
  match dir.checkpoint with
  | none => (.error .valueError,{ self with model := none })
  | some (path,weights) => (.ok (),{ self with model := some path, sess := some weights })

/- The body of the try. An exception keeps what was assigned before it. -/
def load (dir : ModelDir α ω) (self : Object α ω) : Except LoadError Unit × Object α ω :=
  match readConf dir.data with
  | .error e => (.error e,self)
  | .ok conf => loadModel dir { self with reinfConf := conf }

/- init, where tf.initialize_all_variables makes the weights initial. -/
def init (dir : ModelDir α ω) (initial : ω) (self : Object α ω) : Object α ω :=
  match load dir self with
  | (.ok _,self) => self
  | (.error _,self) =>
      { self with sess := some initial, reinfConf := { self.reinfConf with epsilon := IEPS } }

def Unused (conf : TFNNReinfConf α) : Prop :=
  conf.loop = 0 ∧ conf.replayMem = [] ∧ conf.prevState = []

def Resumed (dir : ModelDir α ω) (self : Object α ω) : Prop :=
  ∃ conf path weights, dir.data = .pickle conf ∧ dir.checkpoint = some (path,weights) ∧
    self.reinfConf = conf ∧ self.sess = some weights

def Started (initial : ω) (self : Object α ω) : Prop :=
  Unused self.reinfConf ∧ self.reinfConf.epsilon = IEPS ∧ self.sess = some initial

/- init resumes or starts anew exactly when a configuration that has been used does not
stand in the directory without a checkpoint. -/
theorem resumesIff (dir : ModelDir α ω) (initial : ω) :
    (Resumed dir (init dir initial Object.new) ∨ Started initial (init dir initial Object.new)) ↔
      ∀ conf, dir.data = .pickle conf → dir.checkpoint = none → Unused conf := by
  obtain ⟨data,checkpoint⟩ := dir
  have fresh : Unused (TFNNReinfConf.new IEPS : TFNNReinfConf α) := ⟨rfl,rfl,rfl⟩
  cases data with
  | absent => exact ⟨fun _ _ there => (nomatch there),fun _ => .inr ⟨fresh,rfl,rfl⟩⟩
  | unreadable => exact ⟨fun _ _ there => (nomatch there),fun _ => .inr ⟨fresh,rfl,rfl⟩⟩
  | pickle conf =>
    cases checkpoint with
    | some saved =>
      obtain ⟨path,weights⟩ := saved
      exact ⟨fun _ _ _ none_ => (nomatch none_),fun _ => .inl ⟨conf,path,weights,rfl,rfl,rfl,rfl⟩⟩
    | none =>
      constructor
      · intro either conf' there _
        cases there
        rcases either with ⟨_,_,_,_,none_,_⟩ | ⟨unused,_⟩
        · cases none_
        · exact unused
      · intro unused
        have unused := unused conf rfl rfl
        exact .inr ⟨unused,rfl,rfl⟩

/- What a terminal call of train does to the directory, step by step: the file is
emptied, the configuration is dumped, the network is saved. -/
def saveSteps (path : String) (conf : TFNNReinfConf α) (weights : ω) :
    List (ModelDir α ω → ModelDir α ω) :=
  [fun dir => { dir with data := .unreadable },fun dir => { dir with data := .pickle conf },
    fun dir => { dir with checkpoint := some (path,weights) }]

def saved (dir : ModelDir α ω) (path : String) (conf : TFNNReinfConf α) (weights : ω) (n : Nat) :
    ModelDir α ω :=
  ((saveSteps path conf weights).take n).foldl (fun dir step => step dir) dir

def emptyDir : ModelDir α ω := ⟨.absent,none⟩

inductive Left (path : String) : Bool → ModelDir α ω → Prop where
  | empty : Left path false emptyDir
  | whole {before dir} (conf : TFNNReinfConf α) (weights : ω) (left : Left path before dir) :
      Left path true (saved dir path conf weights 3)

omit [Zero α] [OfScientific α] in
theorem leftCheckpoint {path : String} {some_ : Bool} {dir : ModelDir α ω}
    (left : Left path some_ dir) : dir.checkpoint.isSome = some_ := by
  cases left with
  | empty => rfl
  | whole conf weights left => rfl

omit [Zero α] [OfScientific α] in
theorem leftEmpty {path : String} {dir : ModelDir α ω} (left : Left path false dir) :
    dir = emptyDir := by
  cases left
  rfl

/- A save that is cut off is resumed from, or started anew after, unless it is the first
one and ends between the configuration and the network. -/
theorem cutResumes {path : String} {some_ : Bool} {dir : ModelDir α ω} {conf : TFNNReinfConf α}
    {n : Nat} (left : Left path some_ dir) (weights initial : ω) (used : conf.loop ≠ 0)
    (steps : n ≤ 3) :
    (Resumed (saved dir path conf weights n) (init (saved dir path conf weights n) initial Object.new) ∨
      Started initial (init (saved dir path conf weights n) initial Object.new)) ↔
      ¬ (some_ = false ∧ n = 2) := by
  rw [resumesIff]
  have checkpoint := leftCheckpoint left
  cases some_ with
  | true =>
    refine ⟨fun _ first => (nomatch first.1),fun _ conf' there none_ => ?_⟩
    have kept : (saved dir path conf weights n).checkpoint.isSome = true := by
      interval_cases n <;> first | exact checkpoint | rfl
    rw [none_] at kept
    cases kept
  | false =>
    cases leftEmpty left
    interval_cases n
    · exact ⟨fun _ cut => (nomatch cut.2),fun _ _ there => (nomatch there)⟩
    · exact ⟨fun _ cut => (nomatch cut.2),fun _ _ there => (nomatch there)⟩
    · exact ⟨fun unused => absurd (unused conf rfl rfl).1 used,fun other => absurd ⟨rfl,rfl⟩ other⟩
    · exact ⟨fun _ cut => (nomatch cut.2),fun _ _ _ none_ => (nomatch none_)⟩

end

def firstConf : TFNNReinfConf ℚ := ⟨1,[[0],[0],[0],[0]],[1],none,true,IEPS,[],0⟩

def firstCut : ModelDir ℚ Nat := saved emptyDir "model.ckpt" firstConf 7 2

theorem firstCutMixes : ¬ ∀ (dir : ModelDir ℚ Nat) (initial : Nat),
    Resumed dir (init dir initial Object.new) ∨ Started initial (init dir initial Object.new) := by
  intro all
  rcases all firstCut 5 with ⟨_,_,_,_,none_,_⟩ | ⟨unused,_⟩
  · cases none_
  · exact absurd unused.1 (Nat.succ_ne_zero 0)

end Autonomizer.Resume
