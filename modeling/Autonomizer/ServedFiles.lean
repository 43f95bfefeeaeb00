import Mathlib
import Autonomizer.CPTransfer
import Autonomizer.Eof

/-! The files that CPServer::serveClient creates and writes for any bytes a client sends,
where open() goes through the directories that a name leads to. -/
namespace Autonomizer.ServedFiles
open CPIO (Bytes)
open CPTransfer Duplex Eof PathName

/- The directories there are, and the files that the system lets nobody open. There are
no links, and fileDir is written from the root. -/
structure Tree where
  isDir : List Bytes → Bool
  refused : Disk → List Bytes → Bool

/- string fileName, up to the NUL that ends it for open(). -/
def fileName (fileDir name : Bytes) : Bytes := fileDir ++ slash :: name.takeWhile (· ≠ 0)

/- open with O_CREAT | O_WRONLY | O_TRUNC, and the file it is. -/
def openFile (tree : Tree) (disk : Disk) (path : Bytes) : Option (List Bytes) :=
  (walk dot tree.isDir [] (path.splitOn slash)).filter (fun found => ¬ tree.refused disk found)

/- serveClient, with an open() that can fail: CPIO asserts that it did not. -/
def serveFiles (tree : Tree) (fileDir : Bytes) (readdir : Disk → List Bytes) :
    ServerPc × Local → Act UInt8 (ServerPc × Local)
  | (.recv (.opening nameLen fileLen),l) =>
      match openFile tree l.disk (fileName fileDir (l.buf.take nameLen)) with
      | none => .fail
      | some path => .work (.recv (.body path fileLen),⟨l.buf,create l.disk path⟩)
  | s => serveClient fileDir readdir s

section
variable {tree : Tree} {fileDir : Bytes} {readdir : Disk → List Bytes} {disk : Disk}

/- A direct child of fileDir. -/
def Inside (fileDir : Bytes) (path : List Bytes) : Prop :=
  ∃ name, path = resolve slash dot fileDir ++ [name]

/- A name that is not opened, or that leads back to fileDir up to its last slash. -/
def Stays (tree : Tree) (fileDir : Bytes) (disk : Disk) (name : Bytes) : Prop :=
  openFile tree disk (fileName fileDir name) = none ∨
    leadsTo slash dot (fileName fileDir name) = resolve slash dot fileDir

theorem openedLeads {path : Bytes} {found : List Bytes}
    (opened : openFile tree disk path = some found) :
    (∃ name, found = leadsTo slash dot path ++ [name]) ∧ found = resolve slash dot path :=
  walkLeads (Option.filter_eq_some_iff.mp opened).1

theorem insideIffStays {name : Bytes} {found : List Bytes}
    (opened : openFile tree disk (fileName fileDir name) = some found) :
    Inside fileDir found ↔ Stays tree fileDir disk name := by
  obtain ⟨⟨last,leads⟩,_⟩ := openedLeads opened
  constructor
  · rintro ⟨other,same⟩
    rw [leads] at same
    exact .inr (List.append_inj_left' same rfl)
  · rintro (none_ | back)
    · rw [opened] at none_
      cases none_
    · rw [back] at leads
      exact ⟨last,leads⟩

theorem staysPlain {name : Bytes} (whole : slash ∉ name.takeWhile (· ≠ 0)) :
    Stays tree fileDir disk name := .inr (leadsPlain whole fileDir)

/- Where fileDir is a directory, a name that a directory can hold is opened as the
transfer of whole files has it. -/
theorem openPlain {name : Bytes} (valid : FileName name)
    (dirs : ∀ first, first <+: fileDir.splitOn slash → first ≠ [] →
      tree.isDir (first.foldl (push dot) []) = true)
    (file : tree.isDir (locate fileDir name) = false)
    (allowed : tree.refused disk (locate fileDir name) = false) :
    openFile tree disk (fileName fileDir name) = some (locate fileDir name) := by
  have whole : name.takeWhile (· ≠ 0) = name :=
    List.takeWhile_eq_self_iff.mpr (fun b inside => by
      have : b ≠ 0 := fun zero => valid.noNul (zero ▸ inside)
      simpa using this)
  have segments : (fileName fileDir name).splitOn slash = fileDir.splitOn slash ++ [name] := by
    rw [fileName,whole,List.splitOn_append_cons_self,List.splitOn_eq_singleton valid.plain.whole]
  have path := locatePlain valid fileDir
  rw [path] at file allowed
  rw [openFile,segments,walkPlain valid.plain [] dirs file,path]
  exact Option.filter_eq_some_iff.mpr ⟨rfl,by simpa [resolve] using allowed⟩

inductive Touches (tree : Tree) (fileDir : Bytes) (s k : ServerPc × Local) : Prop where
  | keeps (kept : k.2.disk = s.2.disk) (closed : ∀ path fileLen, k.1 ≠ .recv (.body path fileLen))
  | creates {nameLen fileLen path} (at_ : s.1 = .recv (.opening nameLen fileLen))
      (opened : openFile tree s.2.disk (fileName fileDir (s.2.buf.take nameLen)) = some path)
      (pc : k.1 = .recv (.body path fileLen)) (made : k.2.disk = create s.2.disk path)
  | writes {path fileLen more bytes} (at_ : s.1 = .recv (.body path fileLen))
      (pc : k.1 = .recv (.body path more)) (wrote : k.2.disk = append s.2.disk path bytes)

def EndsIn (act : Act UInt8 (ServerPc × Local)) (k : ServerPc × Local) : Prop :=
  act = .work k ∨ (∃ symbols, act = .send symbols k) ∨ ∃ n next bytes, act = .recv n next ∧ k = next bytes

theorem sendTouches {pc : SendPc} {l : Local} {k : ServerPc × Local}
    (ends : EndsIn (serveClient fileDir readdir (.send pc,l)) k) : Touches tree fileDir (.send pc,l) k := by
  have quiet {pc' : SendPc} {buf : Bytes} : Touches tree fileDir (.send pc,l) (.send pc',⟨buf,l.disk⟩) :=
    .keeps rfl (fun path fileLen same => by cases same)
  cases pc with
  | entry todo =>
    cases todo with
    | nil =>
      simp [EndsIn,serveClient,sendFile,Act.map] at ends
      subst ends
      exact quiet
    | cons name todo =>
      simp only [serveClient,sendFile] at ends
      split at ends
      · simp [EndsIn,Act.map] at ends
        subst ends
        exact quiet
      · split at ends
        · simp [EndsIn,Act.map] at ends
        · simp [EndsIn,Act.map] at ends
          subst ends
          exact quiet
  | name name file fileLen todo =>
    simp only [serveClient,sendFile] at ends
    split at ends
    · simp [EndsIn,Act.map] at ends
      subst ends
      exact quiet
    · simp [EndsIn,Act.map] at ends
  | body file fileLen todo =>
    simp only [serveClient,sendFile] at ends
    split at ends
    · simp [EndsIn,Act.map] at ends
      subst ends
      exact quiet
    · split at ends
      · simp [EndsIn,Act.map] at ends
        subst ends
        exact quiet
      · simp [EndsIn,Act.map] at ends
  | done =>
    simp [EndsIn,serveClient] at ends
    subst ends
    exact .keeps rfl (fun path fileLen same => by cases same)
  | _ =>
    simp [EndsIn,serveClient,sendFile,Act.map] at ends
    subst ends
    exact quiet

theorem recvTouches {pc : RecvPc} {l : Local} {k : ServerPc × Local}
    (ends : EndsIn (serveFiles tree fileDir readdir (.recv pc,l)) k) :
    Touches tree fileDir (.recv pc,l) k := by
  cases pc with
  | opening nameLen fileLen =>
    simp only [serveFiles] at ends
    split at ends
    · simp [EndsIn] at ends
    · next path opened =>
      simp [EndsIn] at ends
      subst ends
      exact .creates rfl opened rfl rfl
  | body path fileLen =>
    simp only [serveFiles,serveClient,recvFile] at ends
    split at ends
    · simp [EndsIn,Act.map] at ends
      subst ends
      exact .keeps rfl (fun path fileLen same => by cases same)
    · simp [EndsIn,Act.map] at ends
      obtain ⟨_,_,⟨_,rfl⟩,bytes,rfl⟩ := ends
      exact .writes rfl rfl rfl
  | done =>
    simp [EndsIn,serveFiles,serveClient] at ends
    subst ends
    exact .keeps rfl (fun path fileLen same => by cases same)
  | _ =>
    simp [EndsIn,serveFiles,serveClient,recvFile,Act.map] at ends
    obtain ⟨_,_,⟨_,rfl⟩,bytes,rfl⟩ := ends
    exact .keeps rfl (fun path fileLen same => by cases same)

theorem actTouches {s k : ServerPc × Local} (ends : EndsIn (serveFiles tree fileDir readdir s) k) :
    Touches tree fileDir s k := by
  obtain ⟨pc,l⟩ := s
  cases pc with
  | send pc => exact sendTouches ends
  | recv pc => exact recvTouches ends
  | header =>
    simp [EndsIn,serveFiles,serveClient] at ends
    obtain ⟨_,_,⟨_,rfl⟩,bytes,rfl⟩ := ends
    exact .keeps rfl (fun path fileLen same => by cases same)
  | dispatch =>
    simp only [serveFiles,serveClient] at ends
    have quiet {pc : ServerPc} (closed : ∀ path fileLen, pc ≠ .recv (.body path fileLen))
        (ends : EndsIn (.work (pc,l)) k) : Touches tree fileDir (.dispatch,l) k := by
      simp [EndsIn] at ends
      subst ends
      exact .keeps rfl closed
    split_ifs at ends
    all_goals first | exact quiet (by simp) ends | simp [EndsIn] at ends
  | finish =>
    simp [EndsIn,serveFiles,serveClient] at ends
    subst ends
    exact .keeps rfl (fun path fileLen same => by cases same)
  | control request => simp [EndsIn,serveFiles,serveClient] at ends
  | done => simp [EndsIn,serveFiles,serveClient] at ends

/- The file that is open is a direct child of fileDir, and nothing else has changed. -/
def Contained (fileDir : Bytes) (disk : Disk) : Reading UInt8 (ServerPc × Local) → Prop
  | .running (pc,l) _ _ => (∀ path fileLen, pc = .recv (.body path fileLen) → Inside fileDir path) ∧
      ∀ path, ¬ Inside fileDir path → l.disk path = disk path
  | .asserted => True

/- serveClient on a connection, up to any point. -/
abbrev Serves (tree : Tree) (fileDir : Bytes) (readdir : Disk → List Bytes) (l : Local) (bytes : Bytes) :
    Reading UInt8 (ServerPc × Local) → Prop :=
  Relation.ReflTransGen (Step (serveFiles tree fileDir readdir)) (.running (.header,l) [] bytes)

theorem touchesContained {s k : ServerPc × Local} {got stream stream' : Bytes}
    (touches : Touches tree fileDir s k) (contained : Contained fileDir disk (.running s got stream))
    (stays : ∀ nameLen fileLen, s.1 = .recv (.opening nameLen fileLen) →
      Stays tree fileDir s.2.disk (s.2.buf.take nameLen)) :
    Contained fileDir disk (.running k [] stream') := by
  obtain ⟨pc,l⟩ := s
  obtain ⟨pc',l'⟩ := k
  obtain ⟨inside,same⟩ := contained
  cases touches with
  | keeps kept closed =>
    dsimp only at kept closed
    exact ⟨fun path fileLen at_ => absurd at_ (closed path fileLen),fun path outside => by
      rw [kept]; exact same path outside⟩
  | @creates nameLen fileLen path at_ opened next made =>
    dsimp only at at_ opened next made
    have child := (insideIffStays opened).mpr (stays nameLen fileLen at_)
    refine ⟨fun other fileLen pc => ?_,fun other outside => ?_⟩
    · cases next.symm.trans pc
      exact child
    · have apart : other ≠ path := fun here => outside (here ▸ child)
      rw [made,create,Function.update_of_ne apart]
      exact same other outside
  | @writes path fileLen more bytes at_ next wrote =>
    dsimp only at at_ next wrote
    have child := inside path fileLen at_
    refine ⟨fun other fileLen pc => ?_,fun other outside => ?_⟩
    · cases next.symm.trans pc
      exact child
    · have apart : other ≠ path := fun here => outside (here ▸ child)
      rw [wrote,append,Function.update_of_ne apart]
      exact same other outside

theorem stepContained {r r' : Reading UInt8 (ServerPc × Local)}
    (step : Step (serveFiles tree fileDir readdir) r r') (contained : Contained fileDir disk r)
    (stays : ∀ nameLen fileLen l stream, r = .running (.recv (.opening nameLen fileLen),l) [] stream →
      Stays tree fileDir l.disk (l.buf.take nameLen)) : Contained fileDir disk r' := by
  cases step with
  | @work s k stream act =>
    refine touchesContained (actTouches (.inl act)) contained (fun nameLen fileLen at_ => ?_)
    exact stays nameLen fileLen s.2 stream (by rw [← at_])
  | @send s symbols k stream act =>
    refine touchesContained (actTouches (.inr (.inl ⟨symbols,act⟩))) contained
      (fun nameLen fileLen at_ => ?_)
    exact stays nameLen fileLen s.2 stream (by rw [← at_])
  | refused act => trivial
  | read count act some_ asked there => exact contained
  | eof act short => exact contained
  | @received s n next got stream act all =>
    have touches := actTouches (k := next got) (.inr (.inr ⟨n,next,got,act,rfl⟩))
    refine touchesContained touches contained (fun nameLen fileLen at_ => ?_)
    -- no receive is at an open()
    obtain ⟨pc,l⟩ := s
    dsimp only at at_
    subst at_
    simp only [serveFiles] at act
    split at act <;> cases act

theorem servesContained {l : Local} {bytes : Bytes}
    (stays : ∀ nameLen fileLen l' stream, Serves tree fileDir readdir l bytes
        (.running (.recv (.opening nameLen fileLen),l') [] stream) →
      Stays tree fileDir l'.disk (l'.buf.take nameLen))
    {r : Reading UInt8 (ServerPc × Local)} (reached : Serves tree fileDir readdir l bytes r) :
    Contained fileDir l.disk r := by
  induction reached with
  | refl => exact ⟨fun path fileLen at_ => (by cases at_),fun path outside => rfl⟩
  | tail before step ih =>
    refine stepContained step ih (fun nameLen fileLen l' stream here => ?_)
    subst here
    exact stays nameLen fileLen l' stream before

theorem plainNamesContained {l : Local} {bytes : Bytes}
    (plain : ∀ nameLen fileLen l' stream, Serves tree fileDir readdir l bytes
        (.running (.recv (.opening nameLen fileLen),l') [] stream) → slash ∉ l'.buf.take nameLen)
    {r : Reading UInt8 (ServerPc × Local)} (reached : Serves tree fileDir readdir l bytes r) :
    Contained fileDir l.disk r :=
  servesContained (fun nameLen fileLen l' stream here => staysPlain (fun inside =>
    plain nameLen fileLen l' stream here ((List.takeWhile_sublist _).mem inside))) reached

/- For all bytes a client sends: whatever serveClient creates, truncates or writes is a
direct child of fileDir, and nothing outside changes, exactly when every name it gets to
is not opened or leads back to fileDir. -/
theorem containedIffNamesStay {l : Local} {bytes : Bytes} :
    (∀ r, Serves tree fileDir readdir l bytes r → Contained fileDir l.disk r) ↔
      ∀ nameLen fileLen l' stream, Serves tree fileDir readdir l bytes
          (.running (.recv (.opening nameLen fileLen),l') [] stream) →
        Stays tree fileDir l'.disk (l'.buf.take nameLen) := by
  constructor
  · intro contained nameLen fileLen l' stream reached
    cases opened : openFile tree l'.disk (fileName fileDir (l'.buf.take nameLen)) with
    | none => exact .inl opened
    | some path =>
      have act : serveFiles tree fileDir readdir (.recv (.opening nameLen fileLen),l') =
          .work (.recv (.body path fileLen),⟨l'.buf,create l'.disk path⟩) := by
        simp only [serveFiles,opened]
      exact (insideIffStays opened).mp ((contained _ (reached.tail (.work act))).1 path fileLen rfl)
  · exact fun stays r reached => servesContained stays reached

end

/- A server whose directory is /srv/ck, and a client that sends an empty file ../x. -/
def ckDir : Bytes := ascii "/srv/ck"

def ckTree : Tree where
  isDir path := path ∈ [[],[ascii "srv"],[ascii "srv",ascii "ck"]]
  refused _ _ := false

def parentFile : Bytes := ascii "SET" ++ ([4] ++ (le32 0 ++ (ascii "../x" ++ [])))

theorem parentFileCreated : ¬ ∀ (tree : Tree) (fileDir : Bytes) (readdir : Disk → List Bytes)
    (l : Local) (bytes : Bytes) r, Serves tree fileDir readdir l bytes r →
      Contained fileDir l.disk r := by
  intro all
  let l : Local := ⟨[],fun _ => none⟩
  let next := serveFiles ckTree ckDir (fun _ => [])
  have whole {s : ServerPc × Local} {n : Nat} {k : Bytes → ServerPc × Local} (bytes rest : Bytes)
      (act : next s = .recv n k) (size : bytes.length = n) : Relation.ReflTransGen (Step next)
        (.running s [] (bytes ++ rest)) (.running (k bytes) [] rest) := readWhole act size
  have header := whole (ascii "SET") ([4] ++ (le32 0 ++ (ascii "../x" ++ [])))
    (show next (.header,l) = .recv 3 _ from rfl) rfl
  have set_ : next (.dispatch,⟨ascii "SET",l.disk⟩) = .work (.recv .nameLen,⟨ascii "SET",l.disk⟩) := rfl
  have nameLen := whole [4] (le32 0 ++ (ascii "../x" ++ []))
    (show next (.recv .nameLen,⟨ascii "SET",l.disk⟩) = .recv 1 _ from rfl) rfl
  have fileLen := whole (le32 0) (ascii "../x" ++ [])
    (show next (.recv (.fileLen 4),⟨[4,69,84],l.disk⟩) = .recv 4 _ from rfl) rfl
  have name := whole (ascii "../x") []
    (show next (.recv (.name 4 0),⟨le32 0,l.disk⟩) = .recv 4 _ from rfl) rfl
  have opening : next (.recv (.opening 4 0),⟨ascii "../x",l.disk⟩) =
      .work (.recv (.body [ascii "srv",ascii "x"] 0),
        ⟨ascii "../x",create l.disk [ascii "srv",ascii "x"]⟩) := rfl
  have reached := ((((header.tail (.work set_)).trans nameLen).trans fileLen).trans name).tail
    (.work opening)
  obtain ⟨child,same⟩ := (all _ _ _ _ parentFile _ reached).1 _ _ rfl
  have depth := congrArg List.length same
  rw [List.length_append,List.length_singleton] at depth
  exact absurd depth (by decide)

end Autonomizer.ServedFiles
