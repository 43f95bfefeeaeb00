import Mathlib
import Autonomizer.CPTransfer

/-! What a transfer makes of a file's length: st_size goes through an unsigned int and four
bytes on the wire. -/
namespace Autonomizer.FileLen
open CPIO (Bytes)
open CPTransfer Diamond Duplex PathName

/- The copy that the receiver ends with is the file itself if and only if its size fits. -/
def WholeIffFits (fromDir : Bytes) (source : Disk) (toDir : Bytes) (after : Disk) : Prop :=
  ∀ name, FileName name → ∀ file, source (locate fromDir name) = some file →
    (after (locate toDir name) = some file ↔ file.length < 2^32)

theorem cutWhole {file : Bytes} : cut file = file ↔ file.length < 2^32 := by
  constructor
  · intro whole
    rw [← whole]
    exact cutFits file
  · exact cutSmall

section
variable {fromDir toDir : Bytes} {source before : Disk} {names : List Bytes}

theorem cutReceived (entries : Entries fromDir source names) {name file : Bytes}
    (valid : FileName name) (stored : source (locate fromDir name) = some file) :
    receiveAll toDir before (cutFiles fromDir source names) (locate toDir name) =
      some (cut file) := by
  have listed : (name,file) ∈ files fromDir source names := by
    refine List.mem_filterMap.mpr ⟨name,entries.complete name valid (by rw [stored]; rfl),?_⟩
    rw [if_neg (notDots valid),stored]
    rfl
  have sent : (name,cut file) ∈ cutFiles fromDir source names :=
    List.mem_map_of_mem (f := fun f => (f.1,cut f.2)) listed
  have unique : ((cutFiles fromDir source names).map Prod.fst).Nodup := by
    rw [cutFiles,List.map_map]
    exact sentNodup entries
  exact receiveAllSent toDir _ before (fun f member => (cutSent entries f member).1) unique sent

theorem receivedWholeIff (entries : Entries fromDir source names) :
    WholeIffFits fromDir source toDir
      (receiveAll toDir before (cutFiles fromDir source names)) := by
  intro name valid file stored
  rw [cutReceived entries valid stored,Option.some.injEq]
  exact cutWhole

end

/- A SET session and a GET session of any regular files: in every interleaving both sides
finish without an assertion, and the files that arrive whole are those below 4 GiB. -/
theorem wholeIffFits (cdir sdir : Bytes) (readdirC readdirS : Disk → List Bytes) (c s : Local) :
    (Entries cdir c.disk (readdirC c.disk) →
      Exchange (sessionStep cdir sdir readdirS) (Failed (client cdir) (serveClient sdir readdirS))
        (setSession readdirC c s)
        (fun final => WholeIffFits cdir c.disk sdir final.right.2.disk)) ∧
    (Entries sdir s.disk (readdirS s.disk) →
      Exchange (sessionStep cdir sdir readdirS) (Failed (client cdir) (serveClient sdir readdirS))
        (getSession c s)
        (fun final => WholeIffFits sdir s.disk cdir final.left.2.disk)) := by
  constructor
  · intro entries
    obtain ⟨n,bufC,bufS,path⟩ := setSessionPath sdir readdirS s entries
    exact exchanged path ⟨rfl,rfl,rfl,rfl⟩ (receivedWholeIff entries)
  · intro entries
    obtain ⟨n,bufC,bufS,path⟩ := getSessionPath cdir c entries
    exact exchanged path ⟨rfl,rfl,rfl,rfl⟩ (receivedWholeIff entries)

theorem oneFileEntries {name file : Bytes} (dir : Bytes) (valid : FileName name) :
    Entries dir (oneFile dir name file) [ascii ".",ascii "..",name] := by
  -- the names are those of a listing of any other file
  have listing : Listing dir (oneFile dir name []) [ascii ".",ascii "..",name] :=
    oneFileListing dir valid (by decide)
  have stored : oneFile dir name file (locate dir name) = some file := by
    rw [oneFile,if_pos (locatePlain valid dir)]
  refine ⟨listing.nodup,fun other inside => ?_,fun other good found => ?_⟩
  · rcases List.mem_cons.mp inside with same | inside
    · exact .inl same
    · rcases List.mem_cons.mp inside with same | inside
      · exact .inr (.inl same)
      · cases List.mem_singleton.mp inside
        exact .inr (.inr ⟨valid,file,stored⟩)
  · refine listing.complete other good ?_
    unfold oneFile at found ⊢
    split at found
    · next here =>
      rw [if_pos here]
      rfl
    · cases found

/- A side whose directory has one file, and what readdir returns there. -/
def holder (file : Bytes) : Local := ⟨[],oneFile (ascii "d") (ascii "f") file⟩

def listed : Disk → List Bytes := fun _ => [ascii ".",ascii "..",ascii "f"]

def empty : Local := ⟨[],fun _ => none⟩

theorem fileName : FileName (ascii "f") := by decide

theorem holderEntries (file : Bytes) :
    Entries (ascii "d") (holder file).disk (listed (holder file).disk) :=
  oneFileEntries (ascii "d") fileName

theorem holderStored (file : Bytes) :
    (holder file).disk (locate (ascii "d") (ascii "f")) = some file := by
  simp only [holder,oneFile]
  exact if_pos (locatePlain fileName (ascii "d"))

theorem wordsWhole : ∃ final, Settles (sessionStep (ascii "d") (ascii "d") listed)
    (setSession listed (holder (ascii "words")) empty) final ∧
    final.right.2.disk (locate (ascii "d") (ascii "f")) = some (ascii "words") := by
  obtain ⟨⟨final,settled,_,whole⟩,_⟩ := (wholeIffFits (ascii "d") (ascii "d") listed listed
    (holder (ascii "words")) empty).1 (holderEntries _)
  exact ⟨final,settled,(whole _ fileName _ (holderStored _)).mpr (by decide)⟩

/- 4 GiB of zeros. -/
def zeros : Bytes := List.replicate (2^32) 0

theorem zerosLength : zeros.length = 2^32 := List.length_replicate

/- A file of 4 GiB arrives empty, and both sides finish. -/
theorem zerosLost : ∃ final, Settles (sessionStep (ascii "d") (ascii "d") listed)
    (setSession listed (holder zeros) empty) final ∧ Complete final ∧
    final.right.2.disk (locate (ascii "d") (ascii "f")) = some [] ∧
    final.right.2.disk (locate (ascii "d") (ascii "f")) ≠ some zeros := by
  obtain ⟨n,bufC,bufS,path⟩ := setSessionPath (ascii "d") listed empty (holderEntries zeros)
  have received : receiveAll (ascii "d") empty.disk
      (cutFiles (ascii "d") (holder zeros).disk (listed (holder zeros).disk))
      (locate (ascii "d") (ascii "f")) = some (cut zeros) :=
    cutReceived (holderEntries zeros) fileName (holderStored zeros)
  have none_ : cut zeros = [] := by rw [cut,zerosLength,Nat.mod_self,List.take_zero]
  rw [none_] at received
  refine ⟨_,settles joins path (bothHalted rfl rfl),⟨rfl,rfl,rfl,rfl⟩,received,fun whole => ?_⟩
  have lost : ([] : Bytes) = zeros := Option.some.inj (received.symm.trans whole)
  have size := zerosLength
  rw [← lost] at size
  cases size

end Autonomizer.FileLen
