import Mathlib
import Autonomizer.CPIO
import Autonomizer.Duplex
import Autonomizer.PathName

/-! The SET and GET sessions of CPClient and CPServer. Both sides are machines
over byte streams; cpRead and cpWrite are the exact transfers of their callers'
assumption, and every message passes through the one 256-byte buffer. Directory
order is whatever readdir reports. -/
namespace Autonomizer.CPTransfer
open CPIO (Bytes)
open Diamond Duplex PathName

def bufSize : Nat := 256
def slash : UInt8 := 47
def dot : UInt8 := 46

def ascii (s : String) : Bytes := s.toList.map (fun c => UInt8.ofNat c.toNat)

abbrev Disk := List Bytes → Option Bytes

structure Local where
  buf : Bytes
  disk : Disk

/- The path open() sees is a C string: a received name ends at its first NUL. -/
def locate (fileDir name : Bytes) : List Bytes :=
  resolve slash dot (fileDir ++ slash :: name.takeWhile (· ≠ 0))

def fill (buf bytes : Bytes) : Bytes := bytes ++ buf.drop bytes.length

def sprintf (buf text : Bytes) : Bytes := fill buf (text ++ [0])

def le32 (n : Nat) : Bytes :=
  [UInt8.ofNat n,UInt8.ofNat (n / 256),UInt8.ofNat (n / 65536),UInt8.ofNat (n / 16777216)]

/- *((unsigned int *) buf) on a little-endian host. -/
def word (buf : Bytes) : Nat :=
  (buf.getD 0 0).toNat + 256 * (buf.getD 1 0).toNat + 65536 * (buf.getD 2 0).toNat +
    16777216 * (buf.getD 3 0).toNat

inductive SendPc where
  | entry (todo : List Bytes)
  | header (name file : Bytes) (fileLen : Nat) (todo : List Bytes)
  | lengths (name file : Bytes) (fileLen : Nat) (todo : List Bytes)
  | name (name file : Bytes) (fileLen : Nat) (todo : List Bytes)
  | body (file : Bytes) (fileLen : Nat) (todo : List Bytes)
  | eof
  | done
  deriving DecidableEq, Repr

/- sendFile of either side over its own directory: one frame for each entry of
todo, the names readdir has yet to return, then EOF. -/
def sendFile (fileDir : Bytes) : SendPc × Local → Act UInt8 (SendPc × Local)
  | (.entry [],l) => .work (.eof,l)
  | (.entry (fileName :: todo),l) =>
      if fileName = ascii ".." ∨ fileName = ascii "." then .work (.entry todo,l)
      else match l.disk (locate fileDir fileName) with
        | none => .fail
        -- unsigned int fileLen = st.st_size
        | some file => .work (.header fileName file (file.length % 2^32) todo,l)
  | (.header fileName file fileLen todo,l) =>
      let buf := sprintf l.buf (ascii "SET")
      .send (buf.take 3) (.lengths fileName file fileLen todo,⟨buf,l.disk⟩)
  | (.lengths fileName file fileLen todo,l) =>
      let buf := fill l.buf (UInt8.ofNat fileName.length :: le32 fileLen)
      .send (buf.take 5) (.name fileName file fileLen todo,⟨buf,l.disk⟩)
  | (.name fileName file fileLen todo,l) =>
      if fileName.length < bufSize then
        let buf := sprintf l.buf fileName
        .send (buf.take fileName.length) (.body file fileLen todo,⟨buf,l.disk⟩)
      else .fail
  | (.body file fileLen todo,l) =>
      if fileLen = 0 then .work (.entry todo,l)
      else
        let rwLen := min bufSize fileLen
        if rwLen ≤ file.length then
          let buf := fill l.buf (file.take rwLen)
          .send (buf.take rwLen) (.body (file.drop rwLen) (fileLen - rwLen) todo,⟨buf,l.disk⟩)
        else .fail
  | (.eof,l) =>
      let buf := sprintf l.buf (ascii "EOF")
      .send (buf.take 3) (.done,⟨buf,l.disk⟩)
  | (.done,_) => .halt

inductive RecvPc where
  | nameLen
  | fileLen (nameLen : Nat)
  | name (nameLen fileLen : Nat)
  | opening (nameLen fileLen : Nat)
  | body (path : List Bytes) (fileLen : Nat)
  | done
  deriving DecidableEq, Repr

def create (disk : Disk) (path : List Bytes) : Disk := Function.update disk path (some [])

def append (disk : Disk) (path : List Bytes) (bytes : Bytes) : Disk :=
  Function.update disk path ((disk path).map (· ++ bytes))

/- recvFile of either side: one frame after its SET header. -/
def recvFile (fileDir : Bytes) : RecvPc × Local → Act UInt8 (RecvPc × Local)
  | (.nameLen,l) => .recv 1 (fun bytes =>
      let buf := fill l.buf bytes
      (.fileLen (buf.getD 0 0).toNat,⟨buf,l.disk⟩))
  | (.fileLen nameLen,l) => .recv 4 (fun bytes =>
      let buf := fill l.buf bytes
      (.name nameLen (word buf),⟨buf,l.disk⟩))
  | (.name nameLen fileLen,l) => .recv nameLen (fun bytes =>
      (.opening nameLen fileLen,⟨fill l.buf bytes,l.disk⟩))
  -- open with O_CREAT | O_TRUNC
  | (.opening nameLen fileLen,l) =>
      let path := locate fileDir (l.buf.take nameLen)
      .work (.body path fileLen,⟨l.buf,create l.disk path⟩)
  | (.body path fileLen,l) =>
      if fileLen = 0 then .work (.done,l)
      else
        let rwLen := min bufSize fileLen
        .recv rwLen (fun bytes =>
          let buf := fill l.buf bytes
          (.body path (fileLen - rwLen),⟨buf,append l.disk path (buf.take rwLen)⟩))
  | (.done,_) => .halt

inductive ClientPc where
  | getRequest
  | getHeader
  | getDispatch
  | getRecv (pc : RecvPc)
  | getEnd
  | setSend (pc : SendPc)
  | setWait
  | setCheck
  | done
  deriving DecidableEq, Repr

/- CPClient::doGET and CPClient::doSET. The select before each header returns once
data are readable, so it takes no state of its own here. -/
def client (fileDir : Bytes) : ClientPc × Local → Act UInt8 (ClientPc × Local)
  | (.getRequest,l) =>
      let buf := sprintf l.buf (ascii "GET")
      .send (buf.take 3) (.getHeader,⟨buf,l.disk⟩)
  | (.getHeader,l) => .recv 3 (fun bytes => (.getDispatch,⟨fill l.buf bytes,l.disk⟩))
  | (.getDispatch,l) =>
      let ts := l.buf.take 3
      if ts = ascii "SET" then .work (.getRecv .nameLen,l)
      else if ts = ascii "EOF" then .work (.getEnd,l)
      else .fail
  | (.getRecv .done,l) => .work (.getHeader,l)
  | (.getRecv pc,l) => (recvFile fileDir (pc,l)).map (fun s => (.getRecv s.1,s.2))
  | (.getEnd,l) =>
      let buf := sprintf l.buf (ascii "END")
      .send (buf.take 3) (.done,⟨buf,l.disk⟩)
  | (.setSend .done,l) => .work (.setWait,l)
  | (.setSend pc,l) => (sendFile fileDir (pc,l)).map (fun s => (.setSend s.1,s.2))
  | (.setWait,l) => .recv 3 (fun bytes => (.setCheck,⟨fill l.buf bytes,l.disk⟩))
  | (.setCheck,l) => if l.buf.take 3 = ascii "END" then .work (.done,l) else .fail
  | (.done,_) => .halt

inductive ServerPc where
  | header
  | dispatch
  | send (pc : SendPc)
  | recv (pc : RecvPc)
  | finish
  | control (request : Bytes)
  | done
  deriving DecidableEq, Repr

/- CPServer::serveClient. CKP and RES leave the transfer loop for their handlers. -/
def serveClient (fileDir : Bytes) (readdir : Disk → List Bytes) :
    ServerPc × Local → Act UInt8 (ServerPc × Local)
  | (.header,l) => .recv 3 (fun bytes => (.dispatch,⟨fill l.buf bytes,l.disk⟩))
  | (.dispatch,l) =>
      let ts := l.buf.take 3
      if ts = ascii "GET" then .work (.send (.entry (readdir l.disk)),l)
      else if ts = ascii "SET" then .work (.recv .nameLen,l)
      else if ts = ascii "CKP" ∨ ts = ascii "RES" then .work (.control ts,l)
      else if ts = ascii "EOF" then .work (.finish,l)
      else if ts = ascii "END" then .work (.done,l)
      else .fail
  | (.send .done,l) => .work (.header,l)
  | (.send pc,l) => (sendFile fileDir (pc,l)).map (fun s => (.send s.1,s.2))
  | (.recv .done,l) => .work (.header,l)
  | (.recv pc,l) => (recvFile fileDir (pc,l)).map (fun s => (.recv s.1,s.2))
  | (.finish,l) =>
      let buf := sprintf l.buf (ascii "END")
      .send (buf.take 3) (.done,⟨buf,l.disk⟩)
  | (.control _,_) => .halt
  | (.done,_) => .halt

/- Names a regular file of a directory can have. -/
structure FileName (name : Bytes) : Prop where
  plain : Plain slash dot name
  noNul : (0 : UInt8) ∉ name
  short : name.length ≤ 255

instance decideFileName (name : Bytes) : Decidable (FileName name) :=
  decidable_of_iff (Plain slash dot name ∧ (0 : UInt8) ∉ name ∧ name.length ≤ 255)
    ⟨fun h => ⟨h.1,h.2.1,h.2.2⟩,fun h => ⟨h.plain,h.noNul,h.short⟩⟩

/- names is what readdir returns for a directory of regular files, each of them
below 4 GiB: every file once, in any order, among "." and "..". -/
structure Listing (fileDir : Bytes) (disk : Disk) (names : List Bytes) : Prop where
  nodup : names.Nodup
  regular : ∀ name ∈ names, name = ascii "." ∨ name = ascii ".." ∨
    (FileName name ∧ ∃ file, disk (locate fileDir name) = some file ∧ file.length < 2^32)
  complete : ∀ name, FileName name → (disk (locate fileDir name)).isSome → name ∈ names

structure Entries (fileDir : Bytes) (disk : Disk) (names : List Bytes) : Prop where
  nodup : names.Nodup
  regular : ∀ name ∈ names, name = ascii "." ∨ name = ascii ".." ∨
    (FileName name ∧ ∃ file, disk (locate fileDir name) = some file)
  complete : ∀ name, FileName name → (disk (locate fileDir name)).isSome → name ∈ names

/- What the chunk loop sends of a file: as many bytes as unsigned int fileLen says. -/
def cut (file : Bytes) : Bytes := file.take (file.length % 2^32)

def frame (name file : Bytes) : Bytes :=
  ascii "SET" ++ (UInt8.ofNat name.length :: le32 file.length) ++ name ++ file

def files (fileDir : Bytes) (disk : Disk) (names : List Bytes) : List (Bytes × Bytes) :=
  names.filterMap (fun name =>
    if name = ascii ".." ∨ name = ascii "." then none
    else (disk (locate fileDir name)).map (fun file => (name,file)))

def cutFiles (fileDir : Bytes) (disk : Disk) (names : List Bytes) : List (Bytes × Bytes) :=
  (files fileDir disk names).map (fun f => (f.1,cut f.2))

def frames (sent : List (Bytes × Bytes)) : Bytes := sent.flatMap (fun f => frame f.1 f.2)

def receive (fileDir : Bytes) (disk : Disk) (name file : Bytes) : Disk :=
  Function.update disk (locate fileDir name) (some file)

def receiveAll (fileDir : Bytes) : Disk → List (Bytes × Bytes) → Disk :=
  List.foldl (fun disk f => receive fileDir disk f.1 f.2)

theorem fillTake (buf bytes : Bytes) : (fill buf bytes).take bytes.length = bytes := by
  simp [fill]

theorem fillTakeOf {n : Nat} (buf bytes : Bytes) (size : bytes.length = n) :
    (fill buf bytes).take n = bytes := by rw [← size,fillTake]

theorem sprintfTake (buf text : Bytes) : (sprintf buf text).take text.length = text := by
  simp [sprintf,fill]

theorem wordLe32 (n : Nat) (small : n < 2^32) (rest : Bytes) : word (le32 n ++ rest) = n := by
  simp only [word,le32,List.cons_append,List.nil_append,List.getD_cons_zero,List.getD_cons_succ,
    UInt8.toNat_ofNat']
  omega

theorem nameLength (n : Nat) (small : n ≤ 255) (rest : Bytes) :
    (((UInt8.ofNat n) :: rest).getD 0 0).toNat = n := by
  simp only [List.getD_cons_zero,UInt8.toNat_ofNat']
  omega

theorem locatePlain {name} (valid : FileName name) (fileDir : Bytes) :
    locate fileDir name = resolve slash dot fileDir ++ [name] := by
  have whole : name.takeWhile (· ≠ 0) = name := by
    apply List.takeWhile_eq_self_iff.mpr
    intro b inside
    have : b ≠ 0 := fun zero => valid.noNul (zero ▸ inside)
    simpa using this
  rw [locate,whole,resolveJoin valid.plain]

theorem locateInjective {a b fileDir} (left : FileName a) (right : FileName b)
    (same : locate fileDir a = locate fileDir b) : a = b := by
  rw [locatePlain left,locatePlain right] at same
  simpa using same

theorem notDots {name} (valid : FileName name) : ¬ (name = ascii ".." ∨ name = ascii ".") := by
  rintro (same | same)
  · exact valid.plain.notDots same
  · exact valid.plain.notDot same

theorem cutLength (file : Bytes) : (cut file).length = file.length % 2^32 := by
  rw [cut,List.length_take]
  exact Nat.min_eq_left (Nat.mod_le _ _)

theorem cutSmall {file : Bytes} (small : file.length < 2^32) : cut file = file := by
  rw [cut,Nat.mod_eq_of_lt small,List.take_length]

theorem cutFits (file : Bytes) : (cut file).length < 2^32 := by
  rw [cutLength]
  exact Nat.mod_lt _ (by norm_num)

theorem bodySent (fileDir : Bytes) (disk : Disk) (todo : List Bytes) (file buf : Bytes) {fileLen : Nat}
    (there : fileLen ≤ file.length) :
    ∃ buf', Sends (sendFile fileDir) (.body file fileLen todo,⟨buf,disk⟩) (file.take fileLen)
      (.entry todo,⟨buf',disk⟩) := by
  induction fileLen using Nat.strong_induction_on generalizing file buf with
  | _ fileLen ih =>
    by_cases empty : fileLen = 0
    · subst empty
      exact ⟨buf,.work (by simp [sendFile]) (.refl _)⟩
    · let rwLen := min bufSize fileLen
      have positive : 0 < rwLen := by simp only [rwLen,bufSize]; omega
      have within : rwLen ≤ fileLen := Nat.min_le_right _ _
      have inside : rwLen ≤ file.length := within.trans there
      have chunk : (file.take rwLen).length = rwLen := by simp [inside]
      obtain ⟨buf',rest⟩ := ih (fileLen - rwLen) (by omega) (file.drop rwLen)
        (fill buf (file.take rwLen)) (by rw [List.length_drop]; omega)
      refine ⟨buf',?_⟩
      have act : sendFile fileDir (.body file fileLen todo,⟨buf,disk⟩) =
          .send (file.take rwLen) (.body (file.drop rwLen) (fileLen - rwLen) todo,
            ⟨fill buf (file.take rwLen),disk⟩) := by
        have bytes := fillTakeOf buf (file.take rwLen) chunk
        simp only [sendFile,if_neg empty]
        rw [if_pos inside,bytes]
      have whole := Sends.send act rest
      rwa [← List.take_add,Nat.add_sub_cancel' within] at whole

theorem bodyReceived (fileDir : Bytes) (path : List Bytes) (file old buf : Bytes) (disk : Disk)
    (opened : disk path = some old) :
    ∃ buf', Receives (recvFile fileDir) (.body path file.length,⟨buf,disk⟩) file
      (.done,⟨buf',Function.update disk path (some (old ++ file))⟩) := by
  induction size : file.length using Nat.strong_induction_on generalizing file old buf disk with
  | _ n ih =>
    subst size
    by_cases empty : file.length = 0
    · have none : file = [] := List.length_eq_zero_iff.mp empty
      subst none
      have same : Function.update disk path (some (old ++ [])) = disk := by
        rw [List.append_nil,← opened,Function.update_eq_self]
      rw [same]
      exact ⟨buf,.work (by simp [recvFile]) (.refl _)⟩
    · let rwLen := min bufSize file.length
      have positive : 0 < rwLen := by simp only [rwLen,bufSize]; omega
      have within : rwLen ≤ file.length := Nat.min_le_right _ _
      have chunk : (file.take rwLen).length = rwLen := by simp [within]
      have grown : append disk path (file.take rwLen) =
          Function.update disk path (some (old ++ file.take rwLen)) := by simp [append,opened]
      obtain ⟨buf',rest⟩ := ih (file.drop rwLen).length (by simp only [List.length_drop]; omega)
        (file.drop rwLen) (old ++ file.take rwLen) (fill buf (file.take rwLen))
        (append disk path (file.take rwLen)) (by simp [grown]) rfl
      refine ⟨buf',?_⟩
      rw [grown,Function.update_idem,List.append_assoc,List.take_append_drop] at rest
      have act : recvFile fileDir (.body path file.length,⟨buf,disk⟩) =
          .recv (file.take rwLen).length (fun bytes =>
            (.body path (file.length - rwLen),⟨fill buf bytes,
              append disk path ((fill buf bytes).take rwLen)⟩)) := by
        rw [chunk]
        simp only [recvFile,if_neg empty]
        rfl
      have next : (RecvPc.body path (file.length - rwLen),Local.mk (fill buf (file.take rwLen))
          (append disk path ((fill buf (file.take rwLen)).take rwLen))) =
          (.body path (file.drop rwLen).length,⟨fill buf (file.take rwLen),
            Function.update disk path (some (old ++ file.take rwLen))⟩) := by
        rw [fillTakeOf buf _ chunk,grown,List.length_drop]
      have whole := Receives.recv (k := fun bytes => (RecvPc.body path (file.length - rwLen),
        Local.mk (fill buf bytes) (append disk path ((fill buf bytes).take rwLen)))) act
        (by rw [next]; exact rest)
      rwa [List.take_append_drop] at whole

theorem frameSent {fileDir name file : Bytes} {disk : Disk} (valid : FileName name)
    (stored : disk (locate fileDir name) = some file) (todo : List Bytes) (buf : Bytes) :
    ∃ buf', Sends (sendFile fileDir) (.entry (name :: todo),⟨buf,disk⟩) (frame name (cut file))
      (.entry todo,⟨buf',disk⟩) := by
  let fileLen := file.length % 2^32
  have opened : sendFile fileDir (.entry (name :: todo),⟨buf,disk⟩) =
      .work (.header name file fileLen todo,⟨buf,disk⟩) := by
    simp only [sendFile,if_neg (notDots valid),stored,fileLen]
  let buf₁ := sprintf buf (ascii "SET")
  have header : sendFile fileDir (.header name file fileLen todo,⟨buf,disk⟩) =
      .send (ascii "SET") (.lengths name file fileLen todo,⟨buf₁,disk⟩) := by
    have bytes : (sprintf buf (ascii "SET")).take 3 = ascii "SET" := sprintfTake buf (ascii "SET")
    simp only [sendFile,bytes,buf₁]
  let lens := UInt8.ofNat name.length :: le32 fileLen
  let buf₂ := fill buf₁ lens
  have lengths : sendFile fileDir (.lengths name file fileLen todo,⟨buf₁,disk⟩) =
      .send lens (.name name file fileLen todo,⟨buf₂,disk⟩) := by
    have bytes : (fill buf₁ lens).take 5 = lens := fillTakeOf buf₁ lens rfl
    simp only [lens] at bytes
    simp only [sendFile,bytes,lens,buf₂]
  let buf₃ := sprintf buf₂ name
  have named : sendFile fileDir (.name name file fileLen todo,⟨buf₂,disk⟩) =
      .send name (.body file fileLen todo,⟨buf₃,disk⟩) := by
    have fits : name.length < bufSize := by have := valid.short; simp only [bufSize]; omega
    simp only [sendFile,if_pos fits,sprintfTake,buf₃]
  obtain ⟨buf',body⟩ := bodySent fileDir disk todo file buf₃ (Nat.mod_le file.length (2^32))
  have whole := Sends.work opened (.send header (.send lengths (.send named body)))
  have size : le32 (cut file).length = le32 fileLen := by rw [cutLength]
  refine ⟨buf',?_⟩
  rw [frame,size]
  simpa only [cut,fileLen,lens,List.append_assoc] using whole

/- The receiving side consumes the frame after its header and ends with the file
stored under the sent name. -/
theorem frameReceived {name file : Bytes} (valid : FileName name) (small : file.length < 2^32)
    (fileDir buf : Bytes) (disk : Disk) :
    ∃ buf', Receives (recvFile fileDir) (.nameLen,⟨buf,disk⟩)
      ((UInt8.ofNat name.length :: le32 file.length) ++ name ++ file)
      (.done,⟨buf',receive fileDir disk name file⟩) := by
  let one : Bytes := [UInt8.ofNat name.length]
  let buf₁ := fill buf one
  have first : (RecvPc.fileLen ((fill buf one).getD 0 0).toNat,Local.mk (fill buf one) disk) =
      (.fileLen name.length,⟨buf₁,disk⟩) := by
    have length := nameLength name.length valid.short (buf.drop one.length)
    simp only [one,fill,List.cons_append,List.nil_append] at length ⊢
    rw [length]
    rfl
  let buf₂ := fill buf₁ (le32 file.length)
  have second : (RecvPc.name name.length (word (fill buf₁ (le32 file.length))),
      Local.mk (fill buf₁ (le32 file.length)) disk) = (.name name.length file.length,⟨buf₂,disk⟩) := by
    simp only [fill,wordLe32 file.length small,buf₂]
  let buf₃ := fill buf₂ name
  let path := locate fileDir name
  have opened : recvFile fileDir (.opening name.length file.length,⟨buf₃,disk⟩) =
      .work (.body path file.length,⟨buf₃,create disk path⟩) := by
    simp only [recvFile,buf₃,fillTake,path]
  obtain ⟨buf',body⟩ := bodyReceived fileDir path file [] buf₃ (create disk path) (by simp [create])
  have stored : Function.update (create disk path) path (some ([] ++ file)) =
      receive fileDir disk name file := by simp [create,receive,path]
  rw [stored] at body
  have third : Receives (recvFile fileDir) (.name name.length file.length,⟨buf₂,disk⟩) (name ++ file)
      (.done,⟨buf',receive fileDir disk name file⟩) :=
    .recv (k := fun bytes => (.opening name.length file.length,⟨fill buf₂ bytes,disk⟩)) rfl
      (.work opened body)
  have fourth : Receives (recvFile fileDir) (.fileLen name.length,⟨buf₁,disk⟩)
      (le32 file.length ++ (name ++ file)) (.done,⟨buf',receive fileDir disk name file⟩) :=
    .recv (k := fun bytes => (.name name.length (word (fill buf₁ bytes)),⟨fill buf₁ bytes,disk⟩)) rfl
      (by rw [second]; exact third)
  have whole : Receives (recvFile fileDir) (.nameLen,⟨buf,disk⟩)
      (one ++ (le32 file.length ++ (name ++ file))) (.done,⟨buf',receive fileDir disk name file⟩) :=
    .recv (k := fun bytes => (.fileLen ((fill buf bytes).getD 0 0).toNat,⟨fill buf bytes,disk⟩)) rfl
      (by rw [first]; exact fourth)
  exact ⟨buf',by simpa only [one,List.cons_append,List.nil_append,List.append_assoc] using whole⟩

theorem listingSent {fileDir : Bytes} {disk : Disk} (names : List Bytes) (buf : Bytes)
    (regular : ∀ name ∈ names, name = ascii "." ∨ name = ascii ".." ∨
      (FileName name ∧ ∃ file, disk (locate fileDir name) = some file)) :
    ∃ buf', Sends (sendFile fileDir) (.entry names,⟨buf,disk⟩)
      (frames (cutFiles fileDir disk names) ++ ascii "EOF") (.done,⟨buf',disk⟩) := by
  induction names generalizing buf with
  | nil =>
    have last : sendFile fileDir (.entry [],⟨buf,disk⟩) = .work (.eof,⟨buf,disk⟩) := rfl
    refine ⟨sprintf buf (ascii "EOF"),.work last ?_⟩
    have act : sendFile fileDir (.eof,⟨buf,disk⟩) =
        .send (ascii "EOF") (.done,⟨sprintf buf (ascii "EOF"),disk⟩) := by
      have bytes : (sprintf buf (ascii "EOF")).take 3 = ascii "EOF" := sprintfTake buf (ascii "EOF")
      simp only [sendFile,bytes]
    simpa [cutFiles,files,frames] using Sends.send act (.refl _)
  | cons name names ih =>
    have later := fun n hn => regular n (List.mem_cons_of_mem _ hn)
    by_cases skipped : name = ascii ".." ∨ name = ascii "."
    · obtain ⟨buf',rest⟩ := ih buf later
      have act : sendFile fileDir (.entry (name :: names),⟨buf,disk⟩) =
          .work (.entry names,⟨buf,disk⟩) := by simp only [sendFile,if_pos skipped]
      refine ⟨buf',.work act ?_⟩
      simpa only [cutFiles,files,List.filterMap_cons,if_pos skipped] using rest
    · have sort : FileName name ∧ ∃ file, disk (locate fileDir name) = some file := by
        rcases regular name List.mem_cons_self with same | same | file
        · exact absurd (.inr same) skipped
        · exact absurd (.inl same) skipped
        · exact file
      obtain ⟨valid,file,stored⟩ := sort
      obtain ⟨buf₁,head⟩ := frameSent valid stored names buf
      obtain ⟨buf',rest⟩ := ih buf₁ later
      refine ⟨buf',?_⟩
      have whole := sendsTrans head rest
      simpa only [cutFiles,files,List.filterMap_cons,if_neg skipped,stored,Option.map_some,
        List.map_cons,frames,List.flatMap_cons,List.append_assoc] using whole

theorem listingEntries {fileDir disk names} (listing : Listing fileDir disk names) :
    Entries fileDir disk names := by
  refine ⟨listing.nodup,fun name inside => ?_,listing.complete⟩
  rcases listing.regular name inside with same | same | ⟨valid,file,stored,_⟩
  · exact .inl same
  · exact .inr (.inl same)
  · exact .inr (.inr ⟨valid,file,stored⟩)

theorem sentFile {fileDir disk names} (entries : Entries fileDir disk names) {f}
    (member : f ∈ files fileDir disk names) :
    f.1 ∈ names ∧ FileName f.1 ∧ disk (locate fileDir f.1) = some f.2 := by
  obtain ⟨name,inside,found⟩ := List.mem_filterMap.mp member
  split at found
  · contradiction
  · rename_i kept
    rcases entries.regular name inside with same | same | ⟨valid,file,stored⟩
    · exact absurd (.inr same) kept
    · exact absurd (.inl same) kept
    · rw [stored] at found
      cases Option.some.inj found
      exact ⟨inside,valid,stored⟩

theorem cutFilesSmall {fileDir disk names} (listing : Listing fileDir disk names) :
    cutFiles fileDir disk names = files fileDir disk names := by
  rw [cutFiles]
  conv_rhs => rw [← List.map_id (files fileDir disk names)]
  refine List.map_congr_left (fun f member => ?_)
  obtain ⟨inside,valid,stored⟩ := sentFile (listingEntries listing) member
  rcases listing.regular f.1 inside with same | same | ⟨_,file,found,small⟩
  · exact absurd (.inr same) (notDots valid)
  · exact absurd (.inl same) (notDots valid)
  · cases stored.symm.trans found
    exact Prod.ext rfl (cutSmall small)

theorem cutSent {fileDir disk names} (entries : Entries fileDir disk names) :
    ∀ f ∈ cutFiles fileDir disk names, FileName f.1 ∧ f.2.length < 2^32 := by
  intro f member
  obtain ⟨g,inside,rfl⟩ := List.mem_map.mp member
  exact ⟨(sentFile entries inside).2.1,cutFits g.2⟩

theorem sentNodup {fileDir disk names} (entries : Entries fileDir disk names) :
    ((files fileDir disk names).map Prod.fst).Nodup := by
  have sub : ((files fileDir disk names).map Prod.fst).Sublist names := by
    unfold files
    clear entries
    induction names with
    | nil => simp
    | cons name names ih =>
      simp only [List.filterMap_cons]
      split
      · exact ih.cons _
      · rename_i f found
        split at found
        · contradiction
        · obtain ⟨file,_,same⟩ := Option.map_eq_some_iff.mp found
          subst same
          simpa using ih
  exact entries.nodup.sublist sub

theorem framesReceived {σ : Type} {next : σ × Local → Act UInt8 (σ × Local)} {fileDir : Bytes}
    {head dispatch : σ} {inner : RecvPc → σ}
    (embeds : Embeds (recvFile fileDir) next (fun s => (inner s.1,s.2)))
    (reads : ∀ l, next (head,l) = .recv 3 (fun bytes => (dispatch,⟨fill l.buf bytes,l.disk⟩)))
    (chosen : ∀ l, l.buf.take 3 = ascii "SET" → next (dispatch,l) = .work (inner .nameLen,l))
    (returns : ∀ l, next (inner .done,l) = .work (head,l))
    (sent : List (Bytes × Bytes)) (valid : ∀ f ∈ sent, FileName f.1 ∧ f.2.length < 2^32)
    (buf : Bytes) (disk : Disk) :
    ∃ buf', Receives next (head,⟨buf,disk⟩) (frames sent)
      (head,⟨buf',receiveAll fileDir disk sent⟩) := by
  induction sent generalizing buf disk with
  | nil => exact ⟨buf,.refl _⟩
  | cons f sent ih =>
    obtain ⟨good,small⟩ := valid f List.mem_cons_self
    obtain ⟨buf₁,body⟩ := frameReceived good small fileDir (fill buf (ascii "SET")) disk
    obtain ⟨buf',rest⟩ := ih (fun g hg => valid g (List.mem_cons_of_mem _ hg)) buf₁
      (receive fileDir disk f.1 f.2)
    have first : Receives next (head,⟨buf,disk⟩) (ascii "SET" ++
        ((UInt8.ofNat f.1.length :: le32 f.2.length) ++ f.1 ++ f.2))
        (inner .done,⟨buf₁,receive fileDir disk f.1 f.2⟩) :=
      .recv (reads _) (.work (chosen _ (fillTake buf (ascii "SET")))
        (receivesEmbedded embeds body))
    have whole := receivesTrans first (.work (returns _) rest)
    refine ⟨buf',?_⟩
    simpa only [frames,List.flatMap_cons,frame,List.append_assoc,receiveAll,List.foldl_cons] using whole

theorem receiveAllOther (fileDir : Bytes) (sent : List (Bytes × Bytes)) (disk : Disk)
    (path : List Bytes) (other : ∀ f ∈ sent, path ≠ locate fileDir f.1) :
    receiveAll fileDir disk sent path = disk path := by
  induction sent generalizing disk with
  | nil => rfl
  | cons f sent ih =>
    have rest := ih (receive fileDir disk f.1 f.2) (fun g hg => other g (List.mem_cons_of_mem _ hg))
    exact rest.trans (Function.update_of_ne (other f List.mem_cons_self) _ _)

theorem receiveAllSent (fileDir : Bytes) (sent : List (Bytes × Bytes)) (disk : Disk)
    (valid : ∀ f ∈ sent, FileName f.1) (unique : (sent.map Prod.fst).Nodup) {f} (member : f ∈ sent) :
    receiveAll fileDir disk sent (locate fileDir f.1) = some f.2 := by
  induction sent generalizing disk with
  | nil => contradiction
  | cons g sent ih =>
    have later := fun h hh => valid h (List.mem_cons_of_mem g hh)
    obtain ⟨fresh,unique⟩ := List.nodup_cons.mp unique
    rcases List.mem_cons.mp member with rfl | inside
    · have other : ∀ h ∈ sent, locate fileDir f.1 ≠ locate fileDir h.1 := by
        intro h hh same
        have equal := locateInjective (valid f List.mem_cons_self) (later h hh) same
        exact fresh (equal ▸ List.mem_map.mpr ⟨h,hh,rfl⟩)
      have kept := receiveAllOther fileDir sent (receive fileDir disk f.1 f.2) _ other
      exact kept.trans (Function.update_self _ _ _)
    · exact ih (receive fileDir disk g.1 g.2) later unique inside

/- The receiver's directory after a transfer: every file of the sender under its
name, and nothing else changed. -/
structure Copied (fromDir : Bytes) (source : Disk) (toDir : Bytes) (before after : Disk) : Prop where
  sent : ∀ name, FileName name → ∀ file, source (locate fromDir name) = some file →
    after (locate toDir name) = some file
  others : ∀ path, (∀ name, FileName name → (source (locate fromDir name)).isSome →
    path ≠ locate toDir name) → after path = before path

theorem listingCopied {fromDir source names} (listing : Listing fromDir source names)
    (toDir : Bytes) (before : Disk) :
    Copied fromDir source toDir before (receiveAll toDir before (files fromDir source names)) := by
  constructor
  · intro name valid file stored
    have member : (name,file) ∈ files fromDir source names := by
      apply List.mem_filterMap.mpr
      refine ⟨name,listing.complete name valid (by simp [stored]),?_⟩
      rw [if_neg (notDots valid),stored]
      rfl
    exact receiveAllSent toDir _ before (fun f hf => (sentFile (listingEntries listing) hf).2.1)
      (sentNodup (listingEntries listing)) member
  · intro path other
    apply receiveAllOther
    intro f hf
    have source := sentFile (listingEntries listing) hf
    exact other f.1 source.2.1 (by simp [source.2.2])

abbrev Session := Net UInt8 (ClientPc × Local) (ServerPc × Local)

def setSession (readdir : Disk → List Bytes) (client server : Local) : Session :=
  ⟨(.setSend (.entry (readdir client.disk)),client),(.header,server),[],[]⟩

def getSession (client server : Local) : Session := ⟨(.getRequest,client),(.header,server),[],[]⟩

structure Complete (net : Session) : Prop where
  client : net.left.1 = .done
  server : net.right.1 = .done
  toLeft : net.toLeft = []
  toRight : net.toRight = []

section Sessions
variable (cdir sdir : Bytes) (readdirC readdirS : Disk → List Bytes)

abbrev sessionStep : Session → Session → Prop := Step (client cdir) (serveClient sdir readdirS)

theorem clientSendEmbeds : Embeds (sendFile cdir) (client cdir) (fun s => (.setSend s.1,s.2)) := by
  rintro ⟨pc,l⟩ running
  cases pc with
  | done => exact absurd rfl running
  | _ => rfl

theorem clientRecvEmbeds : Embeds (recvFile cdir) (client cdir) (fun s => (.getRecv s.1,s.2)) := by
  rintro ⟨pc,l⟩ running
  cases pc with
  | done => exact absurd rfl running
  | _ => rfl

theorem serverSendEmbeds :
    Embeds (sendFile sdir) (serveClient sdir readdirS) (fun s => (.send s.1,s.2)) := by
  rintro ⟨pc,l⟩ running
  cases pc with
  | done => exact absurd rfl running
  | _ => rfl

theorem serverRecvEmbeds :
    Embeds (recvFile sdir) (serveClient sdir readdirS) (fun s => (.recv s.1,s.2)) := by
  rintro ⟨pc,l⟩ running
  cases pc with
  | done => exact absurd rfl running
  | _ => rfl

theorem serverFrames (sent : List (Bytes × Bytes))
    (valid : ∀ f ∈ sent, FileName f.1 ∧ f.2.length < 2^32) (buf : Bytes) (disk : Disk) :
    ∃ buf', Receives (serveClient sdir readdirS) (.header,⟨buf,disk⟩) (frames sent)
      (.header,⟨buf',receiveAll sdir disk sent⟩) := by
  have reads : ∀ l, serveClient sdir readdirS (.header,l) =
      .recv 3 (fun bytes => (.dispatch,⟨fill l.buf bytes,l.disk⟩)) := fun _ => rfl
  refine framesReceived (serverRecvEmbeds sdir readdirS) reads ?_ (fun _ => rfl) sent valid buf disk
  intro l header
  have other : ascii "SET" ≠ ascii "GET" := by decide
  simp only [serveClient,header,if_neg other,if_true]

theorem clientFrames (sent : List (Bytes × Bytes))
    (valid : ∀ f ∈ sent, FileName f.1 ∧ f.2.length < 2^32) (buf : Bytes) (disk : Disk) :
    ∃ buf', Receives (client cdir) (.getHeader,⟨buf,disk⟩) (frames sent)
      (.getHeader,⟨buf',receiveAll cdir disk sent⟩) := by
  have reads : ∀ l, client cdir (.getHeader,l) =
      .recv 3 (fun bytes => (.getDispatch,⟨fill l.buf bytes,l.disk⟩)) := fun _ => rfl
  refine framesReceived (clientRecvEmbeds cdir) reads ?_ (fun _ => rfl) sent valid buf disk
  intro l header
  simp only [client,header,if_true]

variable {cdir sdir readdirC readdirS}

theorem setSessionPath (sdir : Bytes) (readdirS : Disk → List Bytes) {c : Local} (s : Local)
    (entries : Entries cdir c.disk (readdirC c.disk)) :
    ∃ n bufC bufS, Steps (sessionStep cdir sdir readdirS) n (setSession readdirC c s)
      ⟨(.done,⟨bufC,c.disk⟩),
        (.done,⟨bufS,receiveAll sdir s.disk (cutFiles cdir c.disk (readdirC c.disk))⟩),[],[]⟩ := by
  let sent := cutFiles cdir c.disk (readdirC c.disk)
  have valid : ∀ f ∈ sent, FileName f.1 ∧ f.2.length < 2^32 := cutSent entries
  obtain ⟨bufC,sending⟩ := listingSent (readdirC c.disk) c.buf entries.regular
  have waits : client cdir (.setSend .done,⟨bufC,c.disk⟩) = .work (.setWait,⟨bufC,c.disk⟩) := rfl
  have clientSends := sendsTrans (sendsEmbedded (clientSendEmbeds cdir) sending)
    (.work waits (.refl _))
  obtain ⟨bufS,receiving⟩ := serverFrames sdir readdirS sent valid s.buf s.disk
  let bufE := fill bufS (ascii "EOF")
  have serverEof : Receives (serveClient sdir readdirS) (.header,⟨bufS,receiveAll sdir s.disk sent⟩)
      (ascii "EOF" ++ []) (.finish,⟨bufE,receiveAll sdir s.disk sent⟩) := by
    refine .recv (k := fun bytes => (.dispatch,⟨fill bufS bytes,receiveAll sdir s.disk sent⟩)) rfl
      (.work ?_ (.refl _))
    have header : (fill bufS (ascii "EOF")).take 3 = ascii "EOF" := fillTake bufS (ascii "EOF")
    simp only [serveClient,header]
    rfl
  have serverReceives := receivesTrans receiving serverEof
  let bufD := sprintf bufE (ascii "END")
  have serverEnd : Sends (serveClient sdir readdirS) (.finish,⟨bufE,receiveAll sdir s.disk sent⟩)
      (ascii "END" ++ []) (.done,⟨bufD,receiveAll sdir s.disk sent⟩) := by
    refine .send ?_ (.refl _)
    have bytes : (sprintf bufE (ascii "END")).take 3 = ascii "END" := sprintfTake bufE (ascii "END")
    simp only [serveClient,bytes,bufD]
  let bufF := fill bufC (ascii "END")
  have clientEnd : Receives (client cdir) (.setWait,⟨bufC,c.disk⟩) (ascii "END" ++ [])
      (.done,⟨bufF,c.disk⟩) := by
    refine .recv (k := fun bytes => (.setCheck,⟨fill bufC bytes,c.disk⟩)) rfl (.work ?_ (.refl _))
    have header : (fill bufC (ascii "END")).take 3 = ascii "END" := fillTake bufC (ascii "END")
    simp only [client,header,if_true,bufF]
  obtain ⟨n₁,path₁⟩ := leftSends (R := serveClient sdir readdirS) clientSends (.header,s) [] []
  obtain ⟨n₂,path₂⟩ := rightReceives (L := client cdir) serverReceives (.setWait,⟨bufC,c.disk⟩) [] []
  obtain ⟨n₃,path₃⟩ := rightSends (L := client cdir) serverEnd (.setWait,⟨bufC,c.disk⟩) [] []
  obtain ⟨n₄,path₄⟩ := leftReceives (R := serveClient sdir readdirS) clientEnd
    (.done,⟨bufD,receiveAll sdir s.disk sent⟩) [] []
  simp only [List.append_nil,List.nil_append] at path₁ path₂ path₃ path₄
  exact ⟨_,bufF,bufD,stepsAppend path₁ (stepsAppend path₂ (stepsAppend path₃ path₄))⟩

theorem getSessionPath (cdir : Bytes) (c : Local) {s : Local}
    (entries : Entries sdir s.disk (readdirS s.disk)) :
    ∃ n bufC bufS, Steps (sessionStep cdir sdir readdirS) n (getSession c s)
      ⟨(.done,⟨bufC,receiveAll cdir c.disk (cutFiles sdir s.disk (readdirS s.disk))⟩),
        (.done,⟨bufS,s.disk⟩),[],[]⟩ := by
  let sent := cutFiles sdir s.disk (readdirS s.disk)
  have valid : ∀ f ∈ sent, FileName f.1 ∧ f.2.length < 2^32 := cutSent entries
  let bufA := sprintf c.buf (ascii "GET")
  have clientAsks : Sends (client cdir) (.getRequest,c) (ascii "GET" ++ [])
      (.getHeader,⟨bufA,c.disk⟩) := by
    refine .send ?_ (.refl _)
    have bytes : (sprintf c.buf (ascii "GET")).take 3 = ascii "GET" := sprintfTake c.buf (ascii "GET")
    simp only [client,bytes,bufA]
  let bufB := fill s.buf (ascii "GET")
  have serverAsked : Receives (serveClient sdir readdirS) (.header,s) (ascii "GET" ++ [])
      (.send (.entry (readdirS s.disk)),⟨bufB,s.disk⟩) := by
    refine .recv (k := fun bytes => (.dispatch,⟨fill s.buf bytes,s.disk⟩)) rfl (.work ?_ (.refl _))
    have header : (fill s.buf (ascii "GET")).take 3 = ascii "GET" := fillTake s.buf (ascii "GET")
    simp only [serveClient,header,if_true,bufB]
  obtain ⟨bufS,sending⟩ := listingSent (readdirS s.disk) bufB entries.regular
  have returns : serveClient sdir readdirS (.send .done,⟨bufS,s.disk⟩) =
      .work (.header,⟨bufS,s.disk⟩) := rfl
  have serverSends := sendsTrans (sendsEmbedded (serverSendEmbeds sdir readdirS) sending)
    (.work returns (.refl _))
  obtain ⟨bufC,receiving⟩ := clientFrames cdir sent valid bufA c.disk
  let bufE := fill bufC (ascii "EOF")
  have clientEof : Receives (client cdir) (.getHeader,⟨bufC,receiveAll cdir c.disk sent⟩)
      (ascii "EOF" ++ []) (.getEnd,⟨bufE,receiveAll cdir c.disk sent⟩) := by
    refine .recv (k := fun bytes => (.getDispatch,⟨fill bufC bytes,receiveAll cdir c.disk sent⟩)) rfl
      (.work ?_ (.refl _))
    have header : (fill bufC (ascii "EOF")).take 3 = ascii "EOF" := fillTake bufC (ascii "EOF")
    simp only [client,header]
    rfl
  have clientReceives := receivesTrans receiving clientEof
  let bufD := sprintf bufE (ascii "END")
  have clientEnds : Sends (client cdir) (.getEnd,⟨bufE,receiveAll cdir c.disk sent⟩)
      (ascii "END" ++ []) (.done,⟨bufD,receiveAll cdir c.disk sent⟩) := by
    refine .send ?_ (.refl _)
    have bytes : (sprintf bufE (ascii "END")).take 3 = ascii "END" := sprintfTake bufE (ascii "END")
    simp only [client,bytes,bufD]
  let bufF := fill bufS (ascii "END")
  have serverEnded : Receives (serveClient sdir readdirS) (.header,⟨bufS,s.disk⟩) (ascii "END" ++ [])
      (.done,⟨bufF,s.disk⟩) := by
    refine .recv (k := fun bytes => (.dispatch,⟨fill bufS bytes,s.disk⟩)) rfl (.work ?_ (.refl _))
    have header : (fill bufS (ascii "END")).take 3 = ascii "END" := fillTake bufS (ascii "END")
    simp only [serveClient,header]
    rfl
  obtain ⟨n₁,path₁⟩ := leftSends (R := serveClient sdir readdirS) clientAsks (.header,s) [] []
  obtain ⟨n₂,path₂⟩ := rightReceives (L := client cdir) serverAsked (.getHeader,⟨bufA,c.disk⟩) [] []
  obtain ⟨n₃,path₃⟩ := rightSends (L := client cdir) serverSends (.getHeader,⟨bufA,c.disk⟩) [] []
  obtain ⟨n₄,path₄⟩ := leftReceives (R := serveClient sdir readdirS) clientReceives
    (.header,⟨bufS,s.disk⟩) [] []
  obtain ⟨n₅,path₅⟩ := leftSends (R := serveClient sdir readdirS) clientEnds (.header,⟨bufS,s.disk⟩) [] []
  obtain ⟨n₆,path₆⟩ := rightReceives (L := client cdir) serverEnded
    (.done,⟨bufD,receiveAll cdir c.disk sent⟩) [] []
  simp only [List.append_nil,List.nil_append] at path₁ path₂ path₃ path₄ path₅ path₆
  exact ⟨_,bufD,bufF,stepsAppend path₁ (stepsAppend path₂ (stepsAppend path₃ (stepsAppend path₄
    (stepsAppend path₅ path₆))))⟩

/- For every interleaving of the two sides: the session ends after a fixed number
of steps, no step meets an assertion, and the end is as required. -/
structure Exchange (step : Session → Session → Prop) (failed : Session → Prop) (start : Session)
    (result : Session → Prop) : Prop where
  ends : ∃ final, Settles step start final ∧ Complete final ∧ result final
  asserts : ∀ n net, Steps step n start net → ¬ failed net

theorem exchanged {start final : Session} {n : Nat} {result : Session → Prop}
    (path : Steps (sessionStep cdir sdir readdirS) n start final) (complete : Complete final)
    (right : result final) : Exchange (sessionStep cdir sdir readdirS)
      (Failed (client cdir) (serveClient sdir readdirS)) start result := by
  obtain ⟨⟨pcC,localC⟩,⟨pcS,localS⟩,toLeft,toRight⟩ := final
  have doneC : pcC = .done := complete.client
  have doneS : pcS = .done := complete.server
  subst doneC doneS
  have settled := settles joins path (bothHalted rfl rfl)
  exact ⟨⟨_,settled,complete,right⟩,fun _ _ reached => settledNoFailure settled rfl rfl reached⟩

/- A SET session and a GET session, for any directories of regular files below
4 GiB on the sending side and any files on the receiving side. -/
theorem sessionRoundTrip (cdir sdir : Bytes) (readdirC readdirS : Disk → List Bytes) (c s : Local) :
    (Listing cdir c.disk (readdirC c.disk) →
      Exchange (sessionStep cdir sdir readdirS) (Failed (client cdir) (serveClient sdir readdirS))
        (setSession readdirC c s)
        (fun final => final.left.2.disk = c.disk ∧
          Copied cdir c.disk sdir s.disk final.right.2.disk)) ∧
    (Listing sdir s.disk (readdirS s.disk) →
      Exchange (sessionStep cdir sdir readdirS) (Failed (client cdir) (serveClient sdir readdirS))
        (getSession c s)
        (fun final => final.right.2.disk = s.disk ∧
          Copied sdir s.disk cdir c.disk final.left.2.disk)) := by
  constructor
  · intro listing
    obtain ⟨n,bufC,bufS,path⟩ := setSessionPath sdir readdirS s (listingEntries listing)
    rw [cutFilesSmall listing] at path
    exact exchanged path ⟨rfl,rfl,rfl,rfl⟩ ⟨rfl,listingCopied listing sdir s.disk⟩
  · intro listing
    obtain ⟨n,bufC,bufS,path⟩ := getSessionPath cdir c (listingEntries listing)
    rw [cutFilesSmall listing] at path
    exact exchanged path ⟨rfl,rfl,rfl,rfl⟩ ⟨rfl,listingCopied listing cdir c.disk⟩

end Sessions

def oneFile (dir name file : Bytes) : Disk := fun path =>
  if path = resolve slash dot dir ++ [name] then some file else none

theorem oneFileListing {name file : Bytes} (dir : Bytes) (valid : FileName name)
    (small : file.length < 2^32) :
    Listing dir (oneFile dir name file) [ascii ".",ascii "..",name] := by
  have stored : oneFile dir name file (locate dir name) = some file := by
    simp [oneFile,locatePlain valid]
  refine ⟨?_,?_,?_⟩
  · have first := fun same => notDots valid (.inr (same : name = ascii "."))
    have second := fun same => notDots valid (.inl (same : name = ascii ".."))
    have dots : ascii "." ≠ ascii ".." := by decide
    simp only [List.nodup_cons,List.mem_cons,List.not_mem_nil,or_false,not_or,not_false_iff,
      List.nodup_nil,and_true]
    exact ⟨⟨dots,fun same => first same.symm⟩,fun same => second same.symm⟩
  · intro n member
    simp only [List.mem_cons,List.not_mem_nil,or_false] at member
    rcases member with same | same | same
    · exact .inl same
    · exact .inr (.inl same)
    · subst same; exact .inr (.inr ⟨valid,file,stored,small⟩)
  · intro n good found
    rw [locatePlain good,oneFile] at found
    split at found
    · rename_i same
      have equal : n = name := by simpa using same
      simp [equal]
    · contradiction

/- A file named END whose bytes spell EOF, both ways. -/
theorem sessionRoundTripEof :
    let dir := ascii ".ckpt"
    let full : Local := ⟨[],oneFile dir (ascii "END") (ascii "EOF")⟩
    let empty : Local := ⟨[],fun _ => none⟩
    let readdir : Disk → List Bytes := fun _ => [ascii ".",ascii "..",ascii "END"]
    (∃ final, Settles (sessionStep dir dir readdir) (setSession readdir full empty) final ∧
      final.right.2.disk (locate dir (ascii "END")) = some (ascii "EOF")) ∧
    (∃ final, Settles (sessionStep dir dir readdir) (getSession empty full) final ∧
      final.left.2.disk (locate dir (ascii "END")) = some (ascii "EOF")) := by
  intro dir full empty readdir
  have valid : FileName (ascii "END") := by decide
  have stored : full.disk (locate dir (ascii "END")) = some (ascii "EOF") := by
    simp [full,oneFile,locatePlain valid]
  have listing : Listing dir full.disk [ascii ".",ascii "..",ascii "END"] :=
    oneFileListing dir valid (by decide)
  constructor
  · obtain ⟨⟨final,settled,_,_,copied⟩,_⟩ :=
      (sessionRoundTrip dir dir readdir readdir full empty).1 listing
    exact ⟨final,settled,copied.sent _ valid _ stored⟩
  · obtain ⟨⟨final,settled,_,_,copied⟩,_⟩ :=
      (sessionRoundTrip dir dir readdir readdir empty full).2 listing
    exact ⟨final,settled,copied.sent _ valid _ stored⟩

end Autonomizer.CPTransfer
