import Mathlib
import Autonomizer.Format

/-! A file system with the operations a program makes on it one at a time. A path is
the list of its components from the working directory, which is the empty path. -/
namespace Autonomizer.FileSystem
open Format

abbrev Path := List Text

inductive Node where
  | dir
  | file (text : Text)
  deriving DecidableEq, Repr

/- What reading an open node finds; a directory opens for reading but has no text. -/
def Node.text : Node → Text
  | .file text => text
  | .dir => []

abbrev FS := Path → Option Node

/- opens is a test that a path can be opened for reading, opensDir the same with a
slash after the path. write is one write at the beginning of a file that create
has opened; append opens, appends and closes. -/
inductive Op where
  | opens (path : Path)
  | opensDir (path : Path)
  | isfile (path : Path)
  | mkdir (path : Path)
  | create (path : Path)
  | write (path : Path) (text : Text)
  | append (path : Path) (text : Text)
  deriving DecidableEq, Repr

inductive Reply where
  | ok | eexist | enoent | enotdir | eisdir
  deriving DecidableEq, Repr

/- Whether an entry can be made at a path that has none. -/
def lookupParent (fs : FS) (path : Path) : Reply :=
  match fs path.dropLast with
  | some .dir => .ok
  | some (.file _) => .enotdir
  | none => .enoent

def make (fs : FS) (path : Path) (node : Node) : Reply × FS :=
  match lookupParent fs path with
  | .ok => (.ok,Function.update fs path (some node))
  | failed => (failed,fs)

def handle (op : Op) (fs : FS) : Reply × FS :=
  match op with
  | .opens path => (if (fs path).isSome then .ok else .enoent,fs)
  | .opensDir path => match fs path with
      | some .dir => (.ok,fs)
      | some (.file _) => (.enotdir,fs)
      | none => (.enoent,fs)
  | .isfile path => match fs path with
      | some (.file _) => (.ok,fs)
      | _ => (.enoent,fs)
  | .mkdir path => match fs path with
      | some _ => (.eexist,fs)
      | none => make fs path .dir
  | .create path => match fs path with
      | some .dir => (.eisdir,fs)
      | some (.file _) => (.ok,Function.update fs path (some (.file [])))
      | none => make fs path (.file [])
  | .write path text => match fs path with
      | some (.file old) =>
          (.ok,Function.update fs path (some (.file (text ++ old.drop text.length))))
      | _ => (.ok,fs)
  | .append path text => match fs path with
      | some .dir => (.eisdir,fs)
      | some (.file old) => (.ok,Function.update fs path (some (.file (old ++ text))))
      | none => make fs path (.file text)

def Op.target : Op → Option Path
  | .mkdir path | .create path | .write path _ | .append path _ => some path
  | _ => none

/- Nothing is removed: a directory stays one and a file stays a file. -/
structure Grows (before after : FS) : Prop where
  dir : ∀ path, before path = some .dir → after path = some .dir
  file : ∀ path text, before path = some (.file text) → ∃ text', after path = some (.file text')

theorem growsRefl (fs : FS) : Grows fs fs := ⟨fun _ h => h,fun _ text h => ⟨text,h⟩⟩

theorem growsTrans {a b c : FS} (first : Grows a b) (second : Grows b c) : Grows a c where
  dir path h := second.dir path (first.dir path h)
  file path text h := by
    obtain ⟨text',h'⟩ := first.file path text h
    exact second.file path text' h'

theorem updateNew {fs : FS} {path : Path} (absent : fs path = none) (node : Node) :
    Grows fs (Function.update fs path (some node)) := by
  constructor
  · intro p h
    have other : p ≠ path := fun same => by rw [same,absent] at h; cases h
    rw [Function.update_of_ne other,h]
  · intro p text h
    have other : p ≠ path := fun same => by rw [same,absent] at h; cases h
    exact ⟨text,by rw [Function.update_of_ne other,h]⟩

theorem updateFile {fs : FS} {path : Path} {old : Text} (found : fs path = some (.file old))
    (new : Text) : Grows fs (Function.update fs path (some (.file new))) := by
  constructor
  · intro p h
    have other : p ≠ path := fun same => by rw [same,found] at h; cases h
    rw [Function.update_of_ne other,h]
  · intro p text h
    by_cases same : p = path
    · subst same; exact ⟨new,Function.update_self ..⟩
    · exact ⟨text,by rw [Function.update_of_ne same,h]⟩

theorem makeCases (fs : FS) (path : Path) (node : Node) :
    (fs path.dropLast = some .dir ∧ make fs path node = (.ok,Function.update fs path (some node))) ∨
    (fs path.dropLast ≠ some .dir ∧ (make fs path node).1 ≠ .ok ∧ (make fs path node).1 ≠ .eexist ∧
      (make fs path node).2 = fs) := by
  unfold make lookupParent
  cases found : fs path.dropLast with
  | none => exact .inr ⟨nofun,nofun,nofun,rfl⟩
  | some node => cases node with
    | dir => exact .inl ⟨rfl,rfl⟩
    | file text => exact .inr ⟨nofun,nofun,nofun,rfl⟩

theorem makeGrows {fs : FS} {path : Path} (absent : fs path = none) (node : Node) :
    Grows fs (make fs path node).2 := by
  rcases makeCases fs path node with ⟨_,made⟩ | ⟨_,_,_,same⟩
  · rw [made]; exact updateNew absent node
  · rw [same]; exact growsRefl fs

theorem handleGrows (op : Op) (fs : FS) : Grows fs (handle op fs).2 := by
  cases op with
  | opens path => exact growsRefl fs
  | opensDir path => simp only [handle]; split <;> exact growsRefl fs
  | isfile path => simp only [handle]; split <;> exact growsRefl fs
  | mkdir path =>
    simp only [handle]
    split
    · exact growsRefl fs
    · exact makeGrows (by assumption) _
  | create path =>
    simp only [handle]
    split
    · exact growsRefl fs
    · exact updateFile (by assumption) _
    · exact makeGrows (by assumption) _
  | write path text =>
    simp only [handle]
    split
    · exact updateFile (by assumption) _
    · exact growsRefl fs
  | append path text =>
    simp only [handle]
    split
    · exact growsRefl fs
    · exact updateFile (by assumption) _
    · exact makeGrows (by assumption) _

theorem handleFrame {op : Op} {path : Path} (other : op.target ≠ some path) (fs : FS) :
    (handle op fs).2 path = fs path := by
  have moved {p : Path} (h : p ≠ path) (x : Option Node) : Function.update fs p x path = fs path :=
    Function.update_of_ne (Ne.symm h) x fs
  have made {p : Path} (h : p ≠ path) (node : Node) : (make fs p node).2 path = fs path := by
    rcases makeCases fs p node with ⟨_,made⟩ | ⟨_,_,_,same⟩
    · rw [made]; exact moved h _
    · rw [same]
  cases op with
  | opens p => rfl
  | opensDir p => simp only [handle]; split <;> rfl
  | isfile p => simp only [handle]; split <;> rfl
  | mkdir p =>
    have h : p ≠ path := fun same => other (same ▸ rfl)
    simp only [handle]; split <;> [rfl; exact made h _]
  | create p =>
    have h : p ≠ path := fun same => other (same ▸ rfl)
    simp only [handle]; split <;> [rfl; exact moved h _; exact made h _]
  | write p text =>
    have h : p ≠ path := fun same => other (same ▸ rfl)
    simp only [handle]; split <;> [exact moved h _; rfl]
  | append p text =>
    have h : p ≠ path := fun same => other (same ▸ rfl)
    simp only [handle]; split <;> [rfl; exact moved h _; exact made h _]

/- The paths a program may make a directory at, open for writing, and write to. -/
structure Footprint where
  mkdir : Path → Prop
  create : Path → Prop
  put : Path → Prop

def Footprint.allows (f : Footprint) : Op → Prop
  | .mkdir path => f.mkdir path
  | .create path => f.create path
  | .write path _ | .append path _ => f.put path
  | _ => True

theorem testSame {op : Op} (test : op.target = none) (fs : FS) : (handle op fs).2 = fs := by
  cases op with
  | opens path => rfl
  | opensDir path => simp only [handle]; split <;> rfl
  | isfile path => simp only [handle]; split <;> rfl
  | _ => cases test

theorem opensDirIff {fs : FS} {path : Path} :
    (handle (.opensDir path) fs).1 = .ok ↔ fs path = some .dir := by
  cases found : fs path with
  | none => simp [handle,found]
  | some node => cases node <;> simp [handle,found]

def Op.file : Op → Option Path
  | .create path | .write path _ | .append path _ => some path
  | _ => none

theorem fileTarget {op : Op} {path : Path} (file : op.file = some path) : op.target = some path := by
  cases op <;> first | exact file | cases file

/- What a path can become: mkdir makes a directory where nothing is, and a file is made
or changed where no directory is. -/
theorem handleKinds (op : Op) (fs : FS) (path : Path) :
    (handle op fs).2 path = fs path ∨
    (op = .mkdir path ∧ fs path = none ∧ (handle op fs).2 path = some .dir) ∨
    (op.file = some path ∧ fs path ≠ some .dir ∧ ∃ text, (handle op fs).2 path = some (.file text)) := by
  have made {node : Node} (absent : fs path = none) : (make fs path node).2 path = fs path ∨
      (make fs path node).2 path = some node := by
    rcases makeCases fs path node with ⟨_,made⟩ | ⟨_,_,_,same⟩
    · exact .inr (by rw [made]; exact Function.update_self ..)
    · exact .inl (by rw [same])
  by_cases mine : op.target = some path
  · cases op with
    | mkdir p =>
      cases Option.some.inj mine
      cases found : fs path with
      | some node => simp [handle,found]
      | none =>
        rcases (made found : _ ∨ _ = some Node.dir) with same | dir
        · exact .inl (by simp [handle,found,same])
        · exact .inr (.inl ⟨rfl,rfl,by simp [handle,found,dir]⟩)
    | create p =>
      cases Option.some.inj mine
      cases found : fs path with
      | some node => cases node <;> simp [handle,found,Op.file]
      | none =>
        rcases (made found : _ ∨ _ = some (Node.file [])) with same | file
        · exact .inl (by simp [handle,found,same])
        · exact .inr (.inr ⟨rfl,nofun,[],by simp [handle,found,file]⟩)
    | write p text =>
      cases Option.some.inj mine
      cases found : fs path with
      | some node => cases node <;> simp [handle,found,Op.file]
      | none => simp [handle,found]
    | append p text =>
      cases Option.some.inj mine
      cases found : fs path with
      | some node => cases node <;> simp [handle,found,Op.file]
      | none =>
        rcases (made found : _ ∨ _ = some (Node.file text)) with same | file
        · exact .inl (by simp [handle,found,same])
        · exact .inr (.inr ⟨rfl,nofun,text,by simp [handle,found,file]⟩)
    | _ => cases mine
  · exact .inl (handleFrame mine fs)

def Footprint.writes (f : Footprint) (path : Path) : Prop := f.create path ∨ f.put path

theorem writesFile {f : Footprint} {op : Op} {path : Path} (allowed : f.allows op)
    (file : op.file = some path) : f.writes path := by
  cases op with
  | create p => cases Option.some.inj file; exact .inl allowed
  | write p text => cases Option.some.inj file; exact .inr allowed
  | append p text => cases Option.some.inj file; exact .inr allowed
  | _ => cases file

def Op.path : Op → Path
  | .opens path | .opensDir path | .isfile path | .mkdir path | .create path | .write path _
  | .append path _ => path

theorem targetPath {op : Op} {path : Path} (target : op.target = some path) : op.path = path := by
  cases op <;> first | exact Option.some.inj target | cases target

/- Where two file systems agree on a path and its parent, so do the reply and what the path
is after it. -/
theorem handleLocal {op : Op} {fs other : FS} (here : other op.path = fs op.path)
    (parent : other op.path.dropLast = fs op.path.dropLast) :
    (handle op other).1 = (handle op fs).1 ∧
      (handle op other).2 op.path = (handle op fs).2 op.path := by
  have made (node : Node) : (make other op.path node).1 = (make fs op.path node).1 ∧
      (make other op.path node).2 op.path = (make fs op.path node).2 op.path := by
    have same : lookupParent other op.path = lookupParent fs op.path := by
      simp only [lookupParent,parent]
    unfold make
    rw [same]
    split
    · refine ⟨rfl,?_⟩
      simp only [Function.update_self]
    · exact ⟨rfl,here⟩
  cases found : fs op.path with
  | none =>
    have also : other op.path = none := here.trans found
    cases op with
    | mkdir path =>
      simp only [Op.path] at found also made ⊢
      simpa only [handle,found,also] using made .dir
    | create path =>
      simp only [Op.path] at found also made ⊢
      simpa only [handle,found,also] using made (.file [])
    | append path text =>
      simp only [Op.path] at found also made ⊢
      simpa only [handle,found,also] using made (.file text)
    | _ =>
      simp only [Op.path] at found also
      simp [handle,Op.path,found,also]
  | some node =>
    have also : other op.path = some node := here.trans found
    cases op <;> cases node <;> simp only [Op.path] at found also <;>
      simp [handle,Op.path,found,also]

theorem handleParent {op : Op} {fs : FS} {path : Path} (absent : fs path = none)
    (made : ((handle op fs).2 path).isSome) : fs path.dropLast = some .dir := by
  by_cases mine : op.target = some path
  · have parent {node : Node} (there : ((make fs path node).2 path).isSome) :
        fs path.dropLast = some .dir := by
      rcases makeCases fs path node with ⟨dir,_⟩ | ⟨_,_,_,same⟩
      · exact dir
      · rw [same,absent] at there
        cases there
    cases op with
    | mkdir p =>
      cases Option.some.inj mine
      simp only [handle,absent] at made
      exact parent made
    | create p =>
      cases Option.some.inj mine
      simp only [handle,absent] at made
      exact parent made
    | write p text =>
      cases Option.some.inj mine
      simp only [handle,absent] at made
      cases made
    | append p text =>
      cases Option.some.inj mine
      simp only [handle,absent] at made
      exact parent made
    | _ => cases mine
  · rw [handleFrame mine,absent] at made
    cases made

def Rooted (top : Path) (fs : FS) : Prop :=
  ∀ path name, top <+: path → (fs (path ++ [name])).isSome → fs path = some .dir

theorem handleRooted {top : Path} {fs : FS} (rooted : Rooted top fs) (op : Op) :
    Rooted top (handle op fs).2 := by
  intro path name below there
  refine (handleGrows op fs).dir path ?_
  cases found : fs (path ++ [name]) with
  | some node => exact rooted path name below (by rw [found]; rfl)
  | none =>
    have parent := handleParent found there
    rwa [List.dropLast_concat] at parent

theorem rootedNone {top path : Path} {fs : FS} (rooted : Rooted top fs) (below : top <+: path)
    (noDir : fs path ≠ some .dir) {rest : Path} (some_ : rest ≠ []) : fs (path ++ rest) = none := by
  induction rest using List.reverseRecOn with
  | nil => exact absurd rfl some_
  | append_singleton rest name ih =>
    by_contra there
    have dir := rooted (path ++ rest) name (below.trans (List.prefix_append path rest))
      (by rw [List.append_assoc]; exact Option.ne_none_iff_isSome.mp there)
    by_cases first : rest = []
    · rw [first,List.append_nil] at dir
      exact noDir dir
    · rw [ih first] at dir
      cases dir

def fileText : Option Node → Option Text
  | some (.file text) => some text
  | _ => none

/- The text at a path; nothing and a directory have none. -/
def contents (fs : FS) (path : Path) : Text := (fileText (fs path)).getD []

def effect (path : Path) (text : Option Text) : Op × Reply → Option Text
  | (.create p,.ok) => if p = path then some [] else text
  | (.write p new,_) => if p = path then text.map (fun old => new ++ old.drop new.length) else text
  | (.append p new,.ok) => if p = path then some (text.getD [] ++ new) else text
  | _ => text

theorem effectOther {path : Path} {op : Op} (other : op.file ≠ some path) (text : Option Text)
    (r : Reply) : effect path text (op,r) = text := by
  have apart {p : Path} (h : some p ≠ some path) : p ≠ path := fun same => h (congrArg some same)
  cases op with
  | create p => cases r <;> simp [effect,apart other]
  | write p new => simp [effect,apart other]
  | append p new => cases r <;> simp [effect,apart other]
  | _ => rfl

theorem handleEffect (op : Op) (fs : FS) (path : Path) :
    fileText ((handle op fs).2 path) = effect path (fileText (fs path)) (op,(handle op fs).1) := by
  by_cases other : op.target = some path
  · cases op with
    | mkdir p =>
      cases Option.some.inj other
      cases found : fs path with
      | some node => simp [handle,found,effect]
      | none =>
        rcases makeCases fs path .dir with ⟨_,made⟩ | ⟨_,_,_,same⟩
        · simp [handle,found,effect,made,fileText]
        · simp [handle,found,effect,same,fileText]
    | create p =>
      cases Option.some.inj other
      cases found : fs path with
      | some node => cases node <;> simp [handle,found,effect,fileText]
      | none =>
        rcases makeCases fs path (.file []) with ⟨_,made⟩ | ⟨_,failed,_,same⟩
        · simp [handle,found,effect,made,fileText]
        · simp only [handle,found]
          rw [same,found]
          cases reply : (make fs path (.file [])).1 with
          | ok => exact absurd reply failed
          | _ => rfl
    | write p text =>
      cases Option.some.inj other
      cases found : fs path with
      | some node => cases node <;> simp [handle,found,effect,fileText]
      | none => simp [handle,found,effect,fileText]
    | append p text =>
      cases Option.some.inj other
      cases found : fs path with
      | some node => cases node <;> simp [handle,found,effect,fileText]
      | none =>
        rcases makeCases fs path (.file text) with ⟨_,made⟩ | ⟨_,failed,_,same⟩
        · simp [handle,found,effect,made,fileText]
        · simp only [handle,found]
          rw [same,found]
          cases reply : (make fs path (.file text)).1 with
          | ok => exact absurd reply failed
          | _ => rfl
    | _ => cases other
  · rw [handleFrame other]
    exact (effectOther (fun file => other (fileTarget file)) _ _).symm

theorem handleFile {op : Op} {fs : FS} {path : Path} (other : op.file ≠ some path) :
    fileText ((handle op fs).2 path) = fileText (fs path) := by
  rw [handleEffect,effectOther other]

theorem createdPresent {fs : FS} {path : Path} (made : (handle (.create path) fs).1 = .ok) :
    ∃ text, (handle (.create path) fs).2 path = some (.file text) := by
  cases found : fs path with
  | some node => cases node <;> simp [handle,found] at made ⊢
  | none =>
    rcases makeCases fs path (.file []) with ⟨_,done⟩ | ⟨_,failed,_,_⟩
    · exact ⟨[],by simp [handle,found,done]⟩
    · simp only [handle,found] at made
      exact absurd made failed

theorem contentsFile {fs : FS} {path : Path} {text : Text} (found : fs path = some (.file text)) :
    contents fs path = text := by
  rw [contents,found]
  rfl

theorem createOk {fs : FS} {path : Path} (ok : (handle (.create path) fs).1 = .ok) :
    (handle (.create path) fs).2 = Function.update fs path (some (.file [])) := by
  cases found : fs path with
  | some node => cases node <;> simp [handle,found] at ok ⊢
  | none =>
    simp only [handle,found] at ok ⊢
    rcases makeCases fs path (.file []) with ⟨_,made⟩ | ⟨_,failed,_,_⟩
    · rw [made]
    · exact absurd ok failed

theorem createReady {fs : FS} {path : Path} (noDir : fs path ≠ some .dir)
    (parent : fs path.dropLast = some .dir) :
    handle (.create path) fs = (.ok,Function.update fs path (some (.file []))) := by
  cases found : fs path with
  | some node => cases node <;> simp [handle,found] at noDir ⊢
  | none =>
    rcases makeCases fs path (.file []) with ⟨_,made⟩ | ⟨failed,_⟩
    · simp only [handle,found,made]
    · exact absurd parent failed

theorem writeNew (fs : FS) (path : Path) (text : Text) :
    handle (.write path text) (Function.update fs path (some (.file []))) =
      (.ok,Function.update fs path (some (.file text))) := by
  simp [handle]

theorem appendOk {fs : FS} {path : Path} {text : Text}
    (ok : (handle (.append path text) fs).1 = .ok) :
    (handle (.append path text) fs).2 =
      Function.update fs path (some (.file (contents fs path ++ text))) := by
  cases found : fs path with
  | some node => cases node <;> simp [handle,found,contents,fileText] at ok ⊢
  | none =>
    simp only [handle,found] at ok ⊢
    rcases makeCases fs path (.file text) with ⟨_,made⟩ | ⟨_,failed,_,_⟩
    · rw [made]
      simp [contents,fileText,found]
    · exact absurd ok failed

theorem appendFile {fs : FS} {path : Path} {old : Text} (found : fs path = some (.file old))
    (text : Text) : handle (.append path text) fs =
      (.ok,Function.update fs path (some (.file (contents fs path ++ text)))) := by
  simp [handle,found,contents,fileText]

theorem mkdirReady {fs : FS} {path : Path} (parent : fs path.dropLast = some .dir) :
    ((handle (.mkdir path) fs).1 = .ok ∨ (handle (.mkdir path) fs).1 = .eexist) ∧
      ((∀ text, fs path ≠ some (.file text)) → (handle (.mkdir path) fs).2 path = some .dir) := by
  cases found : fs path with
  | some node =>
    cases node with
    | dir => simp [handle,found]
    | file text => exact ⟨by simp [handle,found],fun noFile => absurd rfl (noFile text)⟩
  | none =>
    rcases makeCases fs path .dir with ⟨_,made⟩ | ⟨failed,_⟩
    · simp [handle,found,made]
    · exact absurd parent failed

def replay (path : Path) (text : Option Text) (log : List (Op × Reply)) : Option Text :=
  log.foldl (effect path) text

theorem replaySnoc (path : Path) (text : Option Text) (log : List (Op × Reply)) (e : Op × Reply) :
    replay path text (log ++ [e]) = effect path (replay path text log) e := by
  simp [replay]

theorem replayAppend (path : Path) (text : Option Text) (log more : List (Op × Reply)) :
    replay path text (log ++ more) = replay path (replay path text log) more := by
  simp [replay]

theorem replayOther {path : Path} {log : List (Op × Reply)}
    (other : ∀ e ∈ log, e.1.file ≠ some path) (text : Option Text) : replay path text log = text := by
  induction log with
  | nil => rfl
  | cons e rest ih =>
    rw [replay,List.foldl_cons,effectOther (other e List.mem_cons_self)]
    exact ih (fun x inside => other x (List.mem_cons_of_mem _ inside))

def putText (path : Path) : Op × Reply → List Text
  | (.append p text,.ok) => if p = path then [text] else []
  | (.write p text,_) => if p = path then [text] else []
  | _ => []

def puts (path : Path) (log : List (Op × Reply)) : List Text := log.flatMap (putText path)

theorem putOther {path : Path} {op : Op} (other : op.file ≠ some path) (r : Reply) :
    putText path (op,r) = [] := by
  have apart {p : Path} (h : some p ≠ some path) : p ≠ path := fun same => h (congrArg some same)
  cases op with
  | write p new => simp [putText,apart other]
  | append p new => cases r <;> simp [putText,apart other]
  | _ => rfl

theorem putsAppend (path : Path) (log more : List (Op × Reply)) :
    puts path (log ++ more) = puts path log ++ puts path more := by
  simp [puts]

end Autonomizer.FileSystem
