import Mathlib
import Autonomizer.ServedFiles

/-! CPServer::serveClient on a connection that the client closes after any bytes. -/
namespace Autonomizer.ServeClient
open CPIO (Bytes SysResult)
open CPTransfer Duplex Eof PathName ServedFiles

/- A frame after its SET header: two lengths, a name and a file. -/
def nameSize (frame : Bytes) : Nat := (frame.getD 0 0).toNat
def fileSize (frame : Bytes) : Nat := word (frame.drop 1)
def frameName (frame : Bytes) : Bytes := (frame.drop 5).take (nameSize frame)
def afterName (frame : Bytes) : Bytes := frame.drop (5 + nameSize frame)

/- Whole messages up to the header of one that ends the session or is unsupported, or up
to the name of a frame that cannot be opened. -/
def Whole (tree : Tree) (fileDir : Bytes) (disk : Disk) (bytes : Bytes) : Prop :=
  if bytes.length < 3 then False
  else if bytes.take 3 = ascii "GET" then Whole tree fileDir disk (bytes.drop 3)
  else if bytes.take 3 = ascii "SET" then
    5 + nameSize (bytes.drop 3) ≤ (bytes.drop 3).length ∧
    ∀ path, openFile tree disk (fileName fileDir (frameName (bytes.drop 3))) = some path →
      fileSize (bytes.drop 3) ≤ (afterName (bytes.drop 3)).length ∧
      Whole tree fileDir (append (create disk path) path
          ((afterName (bytes.drop 3)).take (fileSize (bytes.drop 3))))
        ((afterName (bytes.drop 3)).drop (fileSize (bytes.drop 3)))
  else True
termination_by bytes.length
decreasing_by
  all_goals simp only [afterName,List.length_drop]; omega

def Filed (tree : Tree) (fileDir : Bytes) (disk : Disk) (name : Bytes) (fileLen : Nat) (bytes : Bytes) :
    Prop :=
  ∀ path, openFile tree disk (fileName fileDir name) = some path → fileLen ≤ bytes.length ∧
    Whole tree fileDir (append (create disk path) path (bytes.take fileLen)) (bytes.drop fileLen)

def Wants (tree : Tree) (fileDir : Bytes) : ServerPc × Local → Bytes → Prop
  | (.header,l),bytes => Whole tree fileDir l.disk bytes
  | (.dispatch,l),bytes => Whole tree fileDir l.disk (l.buf.take 3 ++ bytes)
  | (.send _,l),bytes => Whole tree fileDir l.disk bytes
  | (.recv .nameLen,l),bytes => 5 + nameSize bytes ≤ bytes.length ∧
      Filed tree fileDir l.disk (frameName bytes) (fileSize bytes) (afterName bytes)
  | (.recv (.fileLen nameLen),l),bytes => 4 + nameLen ≤ bytes.length ∧
      Filed tree fileDir l.disk ((bytes.drop 4).take nameLen) (word bytes) (bytes.drop (4 + nameLen))
  | (.recv (.name nameLen fileLen),l),bytes => nameLen ≤ bytes.length ∧
      Filed tree fileDir l.disk (bytes.take nameLen) fileLen (bytes.drop nameLen)
  | (.recv (.opening nameLen fileLen),l),bytes =>
      Filed tree fileDir l.disk (l.buf.take nameLen) fileLen bytes
  | (.recv (.body path fileLen),l),bytes => fileLen ≤ bytes.length ∧
      Whole tree fileDir (append l.disk path (bytes.take fileLen)) (bytes.drop fileLen)
  | (.recv .done,l),bytes => Whole tree fileDir l.disk bytes
  | _,_ => True

theorem appendNil (disk : Disk) (path : List Bytes) : append disk path [] = disk := by
  have same : (disk path).map (· ++ ([] : Bytes)) = disk path := by simp
  rw [append,same,Function.update_eq_self]

theorem appendTwice (disk : Disk) (path : List Bytes) (first second : Bytes) :
    append (append disk path first) path second = append disk path (first ++ second) := by
  simp [append,Function.comp_def]

section
variable {tree : Tree} {fileDir : Bytes} {readdir : Disk → List Bytes}

/- What readdir reports: the dot entries and regular files that are there. -/
def Listed (fileDir : Bytes) (disk : Disk) (names : List Bytes) : Prop :=
  ∀ name ∈ names, (name = ascii ".." ∨ name = ascii ".") ∨
    (name.length < bufSize ∧ (disk (locate fileDir name)).isSome)

def Valid (fileDir : Bytes) : ServerPc × Local → Prop
  | (.dispatch,l) => 3 ≤ l.buf.length
  | (.send (.entry todo),l) => Listed fileDir l.disk todo
  | (.send (.header name file fileLen todo),l) | (.send (.lengths name file fileLen todo),l)
  | (.send (.name name file fileLen todo),l) =>
      name.length < bufSize ∧ fileLen ≤ file.length ∧ Listed fileDir l.disk todo
  | (.send (.body file fileLen todo),l) => fileLen ≤ file.length ∧ Listed fileDir l.disk todo
  | _ => True

/- Steps to the next header, in lexicographic order. -/
def rank : ServerPc → Nat × Nat × Nat
  | .header => (0,0,0)
  | .dispatch => (2,0,0)
  | .send (.entry todo) => (1,2 * todo.length + 1,0)
  | .send (.header _ _ fileLen todo) => (1,2 * todo.length + 2,fileLen + 3)
  | .send (.lengths _ _ fileLen todo) => (1,2 * todo.length + 2,fileLen + 2)
  | .send (.name _ _ fileLen todo) => (1,2 * todo.length + 2,fileLen + 1)
  | .send (.body _ fileLen todo) => (1,2 * todo.length + 2,fileLen)
  | .send .eof => (1,0,1)
  | .send .done => (1,0,0)
  | .recv .nameLen => (0,6,0)
  | .recv (.fileLen _) => (0,5,0)
  | .recv (.name _ _) => (0,4,0)
  | .recv (.opening _ _) => (0,3,0)
  | .recv (.body _ _) => (0,2,0)
  | .recv .done => (0,1,0)
  | .finish => (0,1,0)
  | .control _ => (0,0,0)
  | .done => (0,0,0)

def lower (t s : ServerPc × Local) : Prop :=
  Prod.Lex (· < ·) (Prod.Lex (· < ·) (· < ·)) (rank t.1) (rank s.1)

theorem lowerFounded : WellFounded lower :=
  InvImage.wf (fun s : ServerPc × Local => rank s.1) (WellFounded.prod_lex Nat.lt_wfRel.wf
    (WellFounded.prod_lex Nat.lt_wfRel.wf Nat.lt_wfRel.wf))

theorem lowerFirst {t s : ServerPc × Local} (less : (rank t.1).1 < (rank s.1).1) : lower t s :=
  Prod.lex_def.mpr (.inl less)

theorem lowerSecond {t s : ServerPc × Local} (same : (rank t.1).1 = (rank s.1).1)
    (less : (rank t.1).2.1 < (rank s.1).2.1) : lower t s :=
  Prod.lex_def.mpr (.inr ⟨same,Prod.lex_def.mpr (.inl less)⟩)

theorem lowerThird {t s : ServerPc × Local} (same : (rank t.1).1 = (rank s.1).1)
    (equal : (rank t.1).2.1 = (rank s.1).2.1) (less : (rank t.1).2.2 < (rank s.1).2.2) : lower t s :=
  Prod.lex_def.mpr (.inr ⟨same,Prod.lex_def.mpr (.inr ⟨equal,less⟩)⟩)

def Quiet (tree : Tree) (fileDir : Bytes) (s k : ServerPc × Local) : Prop :=
  Valid fileDir k ∧ lower k s ∧ ∀ bytes, Wants tree fileDir s bytes ↔ Wants tree fileDir k bytes

theorem sendQuiet {pc : SendPc} {l : Local} {k : ServerPc × Local}
    (valid : Valid fileDir (.send pc,l))
    (act : serveFiles tree fileDir readdir (.send pc,l) = .work k ∨
      ∃ symbols, serveFiles tree fileDir readdir (.send pc,l) = .send symbols k) :
    Quiet tree fileDir (.send pc,l) k := by
  cases pc with
  | entry todo =>
    cases todo with
    | nil =>
      simp [serveFiles,serveClient,sendFile,Act.map] at act
      subst act
      exact ⟨trivial,lowerSecond rfl (by simp [rank]),fun _ => Iff.rfl⟩
    | cons name todo =>
      have rest : Listed fileDir l.disk todo :=
        fun n inside => valid n (List.mem_cons_of_mem name inside)
      simp only [serveFiles,serveClient,sendFile] at act
      split at act
      · simp [Act.map] at act
        subst act
        exact ⟨rest,lowerSecond rfl (by simp [rank]),fun _ => Iff.rfl⟩
      · rename_i plain
        rcases valid name List.mem_cons_self with dots | ⟨short,there⟩
        · exact absurd dots plain
        · obtain ⟨file,found⟩ := Option.isSome_iff_exists.mp there
          simp [found,Act.map] at act
          subst act
          exact ⟨⟨short,Nat.mod_le _ _,rest⟩,lowerSecond rfl (by simp [rank]; omega),fun _ => Iff.rfl⟩
  | header name file fileLen todo =>
    simp [serveFiles,serveClient,sendFile,Act.map] at act
    obtain ⟨_,_,rfl⟩ := act
    exact ⟨valid,lowerThird rfl rfl (by simp [rank]),fun _ => Iff.rfl⟩
  | lengths name file fileLen todo =>
    simp [serveFiles,serveClient,sendFile,Act.map] at act
    obtain ⟨_,_,rfl⟩ := act
    exact ⟨valid,lowerThird rfl rfl (by simp [rank]),fun _ => Iff.rfl⟩
  | name name file fileLen todo =>
    simp [serveFiles,serveClient,sendFile,Act.map,valid.1] at act
    obtain ⟨_,_,rfl⟩ := act
    exact ⟨valid.2,lowerThird rfl rfl (by simp [rank]),fun _ => Iff.rfl⟩
  | body file fileLen todo =>
    simp only [serveFiles,serveClient,sendFile] at act
    split at act
    · simp [Act.map] at act
      subst act
      exact ⟨valid.2,lowerSecond rfl (by simp [rank]),fun _ => Iff.rfl⟩
    · rename_i more
      have room : min bufSize fileLen ≤ file.length := le_trans (Nat.min_le_right _ _) valid.1
      have some_ : 0 < min bufSize fileLen := by simp only [bufSize]; omega
      simp [Act.map,room] at act
      obtain ⟨_,_,rfl⟩ := act
      refine ⟨⟨?_,valid.2⟩,lowerThird rfl rfl (by simp only [rank]; omega),fun _ => Iff.rfl⟩
      have le := valid.1
      rw [List.length_drop]
      omega
  | eof =>
    simp [serveFiles,serveClient,sendFile,Act.map] at act
    obtain ⟨_,_,rfl⟩ := act
    exact ⟨trivial,lowerThird rfl rfl (by simp [rank]),fun _ => Iff.rfl⟩
  | done =>
    simp [serveFiles,serveClient] at act
    subst act
    exact ⟨trivial,lowerFirst (by simp [rank]),fun _ => Iff.rfl⟩

theorem wholeHeader (disk : Disk) {header : Bytes} (rest : Bytes) (size : header.length = 3) :
    Whole tree fileDir disk (header ++ rest) ↔
      if header = ascii "GET" then Whole tree fileDir disk rest
      else if header = ascii "SET" then 5 + nameSize rest ≤ rest.length ∧
        Filed tree fileDir disk (frameName rest) (fileSize rest) (afterName rest)
      else True := by
  have long : ¬ (header ++ rest).length < 3 := by rw [List.length_append]; omega
  have first : (header ++ rest).take 3 = header := List.take_left' size
  have last : (header ++ rest).drop 3 = rest := List.drop_left' size
  rw [Whole,if_neg long,first,last]
  rfl

theorem dispatchQuiet (reads : ∀ disk, Listed fileDir disk (readdir disk)) {l : Local}
    {k : ServerPc × Local} (valid : Valid fileDir (.dispatch,l))
    (act : serveFiles tree fileDir readdir (.dispatch,l) = .work k) : Quiet tree fileDir (.dispatch,l) k := by
  have size : (l.buf.take 3).length = 3 := by
    rw [List.length_take]
    exact Nat.min_eq_left valid
  have whole (bytes : Bytes) := @wholeHeader tree fileDir l.disk _ bytes size
  simp only [serveFiles,serveClient] at act
  split at act
  · rename_i get
    cases act
    exact ⟨reads l.disk,lowerFirst (by simp [rank]),fun bytes => by
      rw [Wants,whole,if_pos get]; rfl⟩
  · rename_i notGet
    split at act
    · rename_i set_
      cases act
      exact ⟨trivial,lowerFirst (by simp [rank]),fun bytes => by
        rw [Wants,whole,if_neg notGet,if_pos set_]; rfl⟩
    · rename_i notSet
      have ended (bytes : Bytes) : Wants tree fileDir (.dispatch,l) bytes := by
        rw [Wants,whole,if_neg notGet,if_neg notSet]
        trivial
      split at act
      · cases act
        exact ⟨trivial,lowerFirst (by simp [rank]),fun bytes => ⟨fun _ => trivial,fun _ => ended bytes⟩⟩
      · split at act
        · cases act
          exact ⟨trivial,lowerFirst (by simp [rank]),fun bytes => ⟨fun _ => trivial,fun _ => ended bytes⟩⟩
        · split at act
          · cases act
            exact ⟨trivial,lowerFirst (by simp [rank]),
              fun bytes => ⟨fun _ => trivial,fun _ => ended bytes⟩⟩
          · cases act

theorem quietStep (reads : ∀ disk, Listed fileDir disk (readdir disk)) (s k : ServerPc × Local)
    (valid : Valid fileDir s) (act : serveFiles tree fileDir readdir s = .work k ∨
      ∃ symbols, serveFiles tree fileDir readdir s = .send symbols k) : Quiet tree fileDir s k := by
  obtain ⟨pc,l⟩ := s
  cases pc with
  | header => simp [serveFiles,serveClient] at act
  | dispatch =>
    rcases act with work | ⟨symbols,send⟩
    · exact dispatchQuiet reads valid work
    · simp only [serveFiles,serveClient] at send
      split_ifs at send
  | send pc => exact sendQuiet valid act
  | recv pc =>
    cases pc with
    | opening nameLen fileLen =>
      simp only [serveFiles] at act
      split at act
      · simp at act
      · next path opened =>
        simp at act
        subst act
        refine ⟨trivial,lowerSecond rfl (by simp [rank]),fun bytes => ⟨fun filed => filed path opened,?_⟩⟩
        intro whole other found
        cases opened.symm.trans found
        exact whole
    | body path fileLen =>
      simp only [serveFiles,serveClient,recvFile] at act
      split at act
      · rename_i none
        simp [Act.map] at act
        subst act
        exact ⟨trivial,lowerSecond rfl (by simp [rank]),fun bytes => by simp [Wants,none,appendNil]⟩
      · simp [Act.map] at act
    | done =>
      simp [serveFiles,serveClient] at act
      subst act
      exact ⟨trivial,lowerSecond rfl (by simp [rank]),fun _ => Iff.rfl⟩
    | _ => simp [serveFiles,serveClient,recvFile,Act.map] at act
  | finish =>
    simp [serveFiles,serveClient] at act
    obtain ⟨_,_,rfl⟩ := act
    exact ⟨trivial,lowerSecond rfl (by simp [rank]),fun _ => Iff.rfl⟩
  | control request => simp [serveFiles,serveClient] at act
  | done => simp [serveFiles,serveClient] at act

theorem wordTake (bytes rest : Bytes) (size : bytes.length = 4) :
    word (bytes ++ rest) = word bytes := by
  obtain ⟨a,b,c,d,rfl⟩ : ∃ a b c d, bytes = [a,b,c,d] := by
    match bytes,size with
    | [a,b,c,d],_ => exact ⟨a,b,c,d,rfl⟩
  rfl

theorem sendNeverReads {pc : SendPc} {l : Local} {n : Nat} {k : Bytes → ServerPc × Local}
    (act : serveFiles tree fileDir readdir (.send pc,l) = .recv n k) : False := by
  cases pc with
  | entry todo =>
    cases todo with
    | nil => simp [serveFiles,serveClient,sendFile,Act.map] at act
    | cons name todo =>
      simp only [serveFiles,serveClient,sendFile] at act
      split at act
      · simp [Act.map] at act
      · split at act <;> simp [Act.map] at act
  | name name file fileLen todo =>
    simp only [serveFiles,serveClient,sendFile] at act
    split at act <;> simp [Act.map] at act
  | body file fileLen todo =>
    simp only [serveFiles,serveClient,sendFile] at act
    split at act
    · simp [Act.map] at act
    · split at act <;> simp [Act.map] at act
  | _ => simp [serveFiles,serveClient,sendFile,Act.map] at act

theorem recvStep (s : ServerPc × Local) (n : Nat) (k : Bytes → ServerPc × Local)
    (act : serveFiles tree fileDir readdir s = .recv n k) :
    (∀ got, got.length = n → Valid fileDir (k got)) ∧ (n = 0 → lower (k []) s) ∧
      ∀ bytes, Wants tree fileDir s bytes ↔
        n ≤ bytes.length ∧ Wants tree fileDir (k (bytes.take n)) (bytes.drop n) := by
  obtain ⟨pc,l⟩ := s
  cases pc with
  | header =>
    simp only [serveFiles,serveClient,Act.recv.injEq] at act
    obtain ⟨rfl,rfl⟩ := act
    refine ⟨fun got size => ?_,fun none_ => absurd none_ (by decide),fun bytes => ?_⟩
    · simp only [Valid,fill,List.length_append,size]
      omega
    · by_cases enough : 3 ≤ bytes.length
      · have size : (bytes.take 3).length = 3 := by simp [enough]
        simp only [Wants,fillTakeOf l.buf _ size,List.take_append_drop,enough,true_and]
      · rw [Wants,Whole,if_pos (by omega)]
        exact ⟨False.elim,fun h => absurd h.1 enough⟩
  | dispatch =>
    simp only [serveFiles,serveClient] at act
    split_ifs at act
  | send pc => exact (sendNeverReads act).elim
  | recv pc =>
    cases pc with
    | nameLen =>
      simp only [serveFiles,serveClient,recvFile,Act.map,Act.recv.injEq] at act
      obtain ⟨rfl,rfl⟩ := act
      refine ⟨fun got size => trivial,fun none_ => absurd none_ (by decide),fun bytes => ?_⟩
      cases bytes with
      | nil => simp [Wants]
      | cons b rest =>
        have five : 5 + b.toNat = 4 + b.toNat + 1 := by omega
        simp only [Wants,nameSize,fileSize,frameName,afterName,fill,five,List.take_succ_cons,
          List.take_zero,List.drop_succ_cons,List.drop_zero,List.cons_append,List.getD_cons_zero,
          List.length_cons,Nat.add_le_add_iff_right,Nat.le_add_left,true_and]
    | fileLen nameLen =>
      simp only [serveFiles,serveClient,recvFile,Act.map,Act.recv.injEq] at act
      obtain ⟨rfl,rfl⟩ := act
      refine ⟨fun got size => trivial,fun none_ => absurd none_ (by decide),fun bytes => ?_⟩
      simp only [Wants]
      by_cases enough : 4 ≤ bytes.length
      · have size : (bytes.take 4).length = 4 := by simp [enough]
        have same : word (fill l.buf (bytes.take 4)) = word bytes := by
          have whole := wordTake (bytes.take 4) (bytes.drop 4) size
          rw [List.take_append_drop] at whole
          rw [fill,wordTake _ _ size,whole]
        rw [same,List.length_drop,List.drop_drop]
        have left : 4 + nameLen ≤ bytes.length ↔ nameLen ≤ bytes.length - 4 := by omega
        rw [left]
        exact (and_iff_right enough).symm
      · exact ⟨fun h => absurd (Nat.le_of_add_right_le h.1) enough,fun h => absurd h.1 enough⟩
    | name nameLen fileLen =>
      simp only [serveFiles,serveClient,recvFile,Act.map,Act.recv.injEq] at act
      obtain ⟨rfl,rfl⟩ := act
      refine ⟨fun got size => trivial,fun _ => lowerSecond rfl (by simp [rank]),fun bytes => ?_⟩
      simp only [Wants]
      refine and_congr_right fun enough => ?_
      rw [fillTakeOf l.buf _ (List.length_take_of_le enough)]
    | opening nameLen fileLen =>
      simp only [serveFiles] at act
      split at act <;> cases act
    | body path fileLen =>
      simp only [serveFiles,serveClient,recvFile] at act
      split at act
      · simp [Act.map] at act
      · rename_i more
        simp only [Act.map,Act.recv.injEq] at act
        obtain ⟨rfl,rfl⟩ := act
        have some_ : min bufSize fileLen ≠ 0 := by simp only [bufSize]; omega
        refine ⟨fun got size => trivial,fun none => absurd none some_,fun bytes => ?_⟩
        simp only [Wants]
        have whole : min bufSize fileLen + (fileLen - min bufSize fileLen) = fileLen := by omega
        by_cases enough : min bufSize fileLen ≤ bytes.length
        · have chunk := fillTakeOf l.buf _ (List.length_take_of_le enough)
          rw [chunk,appendTwice,← List.take_add,List.length_drop,List.drop_drop,whole]
          have left : fileLen ≤ bytes.length ↔
              fileLen - min bufSize fileLen ≤ bytes.length - min bufSize fileLen := by omega
          rw [left]
          exact (and_iff_right enough).symm
        · exact ⟨fun h => absurd (le_trans (Nat.min_le_right _ _) h.1) enough,
            fun h => absurd h.1 enough⟩
    | done => simp [serveFiles,serveClient] at act
  | finish => simp [serveFiles,serveClient] at act
  | control request => simp [serveFiles,serveClient] at act
  | done => simp [serveFiles,serveClient] at act

theorem ended (s : ServerPc × Local) (valid : Valid fileDir s)
    (act : serveFiles tree fileDir readdir s = .halt ∨ serveFiles tree fileDir readdir s = .fail)
    (bytes : Bytes) : Wants tree fileDir s bytes := by
  obtain ⟨pc,l⟩ := s
  cases pc with
  | header => simp [serveFiles,serveClient] at act
  | dispatch =>
    have size : (l.buf.take 3).length = 3 := by
      rw [List.length_take]
      exact Nat.min_eq_left valid
    simp only [serveFiles,serveClient] at act
    rw [Wants,wholeHeader l.disk bytes size]
    split
    · rename_i get
      simp [get] at act
    · split
      · rename_i set_
        simp [set_,show ascii "SET" ≠ ascii "GET" by decide] at act
      · trivial
  | send pc =>
    -- nothing that is listed fails to be sent
    cases pc with
    | entry todo =>
      cases todo with
      | nil => simp [serveFiles,serveClient,sendFile,Act.map] at act
      | cons name todo =>
        simp only [serveFiles,serveClient,sendFile] at act
        split at act
        · simp [Act.map] at act
        · rename_i plain
          rcases valid name List.mem_cons_self with dots | ⟨_,there⟩
          · exact absurd dots plain
          · obtain ⟨file,found⟩ := Option.isSome_iff_exists.mp there
            simp [found,Act.map] at act
    | name name file fileLen todo => simp [serveFiles,serveClient,sendFile,Act.map,valid.1] at act
    | body file fileLen todo =>
      have room : min bufSize fileLen ≤ file.length := le_trans (Nat.min_le_right _ _) valid.1
      simp only [serveFiles,serveClient,sendFile,room,if_true] at act
      split at act <;> simp [Act.map] at act
    | _ => simp [serveFiles,serveClient,sendFile,Act.map] at act
  | recv pc =>
    cases pc with
    | body path fileLen =>
      simp only [serveFiles,serveClient,recvFile] at act
      split at act <;> simp [Act.map] at act
    | opening nameLen fileLen =>
      simp only [serveFiles] at act
      split at act
      · next failed =>
        intro path opened
        rw [failed] at opened
        cases opened
      · simp at act
    | _ => simp [serveFiles,serveClient,recvFile,Act.map] at act
  | _ => trivial

theorem serveClientDecided (reads : ∀ disk, Listed fileDir disk (readdir disk)) :
    Decided (serveFiles tree fileDir readdir) (Valid fileDir)
    (Wants tree fileDir) lower where
  founded := lowerFounded
  quiet s k valid act := quietStep reads s k valid act
  recv s n k _ act := recvStep s n k act
  ended s valid act := ended s valid act

/- cpRead with fewer bytes left than it asks for stays in its loop, however read()
divides what is left and however often it returns 0 afterwards. -/
theorem cpReadShort {results : List SysResult} {s : CPIO.Reader} {len ptr : Int}
    (range : len ≤ CPIO.intMax) (short : s.stream.length < len)
    (counts : ∀ r ∈ results, ∃ n, r = .count n) :
    CPIO.transfer CPIO.read results s len ptr = .waiting ∨
      CPIO.transfer CPIO.read results s len ptr = .impossible := by
  have some_ : len ≠ 0 := by omega
  induction results generalizing s len ptr with
  | nil => exact .inl (if_neg some_)
  | cons r rest ih =>
    obtain ⟨n,rfl⟩ := counts r List.mem_cons_self
    unfold CPIO.transfer
    rw [if_neg some_]
    by_cases there : n ≤ s.stream.length
    · have fits : ¬ CPIO.intMax < len - (SysResult.count n).value := by
        simp only [SysResult.value]
        omega
      have fine : ¬ ((SysResult.count n).value < len - (SysResult.count n).value ∧
          ¬ ((SysResult.count n).isAgain ∨ 0 ≤ (SysResult.count n).value)) := by
        simp [SysResult.value]
      simp only [if_pos there,if_neg fits,if_neg fine, CPIO.read]
      refine ih ?_ ?_ (fun r inside => counts r (List.mem_cons_of_mem _ inside)) ?_
      · simp only [SysResult.value]
        omega
      · simp only [SysResult.value,List.length_drop]
        omega
      · simp only [SysResult.value]
        omega
    · simp [there, CPIO.read]

/- For every finite sequence of bytes before the end of the stream: every execution of
serveClient stops if and only if the bytes are whole messages up to one that stops it. -/
theorem serveClientEndsIff (reads : ∀ disk, Listed fileDir disk (readdir disk)) (l : Local)
    (bytes : Bytes) :
    Ends (serveFiles tree fileDir readdir) (.running (.header,l) [] bytes) ↔
      Whole tree fileDir l.disk bytes :=
  endsIff (serveClientDecided reads) (show Valid fileDir (.header,l) from trivial) bytes

end

theorem noneListed (fileDir : Bytes) (disk : Disk) : Listed fileDir disk [] := nofun

/- Where fileDir is a directory, a name that a directory can hold is opened and its file
is received. -/
theorem filedPlain {tree : Tree} {fileDir : Bytes} {disk : Disk} {name : Bytes} (fileLen : Nat)
    (bytes : Bytes) (valid : FileName name)
    (dirs : ∀ first, first <+: fileDir.splitOn slash → first ≠ [] →
      tree.isDir (first.foldl (push dot) []) = true)
    (file : tree.isDir (locate fileDir name) = false)
    (allowed : tree.refused disk (locate fileDir name) = false) :
    Filed tree fileDir disk name fileLen bytes ↔ fileLen ≤ bytes.length ∧
      Whole tree fileDir (receive fileDir disk name (bytes.take fileLen)) (bytes.drop fileLen) := by
  have opened := openPlain valid dirs file allowed
  have received : append (create disk (locate fileDir name)) (locate fileDir name) (bytes.take fileLen) =
      receive fileDir disk name (bytes.take fileLen) := by
    simp [append,create,receive]
  rw [← received]
  constructor
  · exact fun filed => filed _ opened
  · intro rest path found
    cases opened.symm.trans found
    exact rest

theorem ckDirs (first : List Bytes) (inside : first <+: ckDir.splitOn slash) (some_ : first ≠ []) :
    ckTree.isDir (first.foldl (push dot) []) = true := by
  have all : ∀ first ∈ (ckDir.splitOn slash).inits, first ≠ [] →
      ckTree.isDir (first.foldl (push dot) []) = true := by decide
  exact all first ((List.mem_inits first _).mpr inside) some_

/- A whole file and a whole EOF header end the session, and so does a file whose name
leads to a directory. -/
theorem serveClientEndsEof :
    Ends (serveFiles ckTree ckDir (fun _ => [])) (.running (.header,⟨[],fun _ => none⟩) []
      (ascii "SET" ++ ([1] ++ (le32 2 ++ (ascii "xab" ++ ascii "EOF"))))) ∧
    Ends (serveFiles ckTree ckDir (fun _ => [])) (.running (.header,⟨[],fun _ => none⟩) []
      (ascii "SET" ++ ([0] ++ le32 100))) := by
  have notGet : ascii "SET" ≠ ascii "GET" := by decide
  constructor
  · refine (serveClientEndsIff (noneListed _) _ _).mpr ((wholeHeader _ _ rfl).mpr ?_)
    rw [if_neg notGet,if_pos rfl]
    have plain : FileName (frameName ([1] ++ (le32 2 ++ (ascii "xab" ++ ascii "EOF")))) := by decide
    refine ⟨by decide,(filedPlain _ _ plain ckDirs (by decide) rfl).mpr ⟨by decide,?_⟩⟩
    have rest : (afterName ([1] ++ (le32 2 ++ (ascii "xab" ++ ascii "EOF")))).drop
        (fileSize ([1] ++ (le32 2 ++ (ascii "xab" ++ ascii "EOF")))) = ascii "EOF" ++ [] := by decide
    rw [rest,wholeHeader _ _ rfl,if_neg (by decide),if_neg (by decide)]
    trivial
  · refine (serveClientEndsIff (noneListed _) _ _).mpr ((wholeHeader _ _ rfl).mpr ?_)
    rw [if_neg notGet,if_pos rfl]
    refine ⟨by decide,fun path opened => ?_⟩
    have failed : openFile ckTree (fun _ => none) (fileName ckDir (frameName ([0] ++ le32 100))) = none := rfl
    cases failed.symm.trans opened

/- A client that closes after two bytes of a header. -/
theorem twoBytesWedge : ¬ Ends (serveFiles ckTree ckDir (fun _ => []))
    (.running (.header,⟨[],fun _ => none⟩) [] (ascii "SE")) := by
  intro ends
  refine ends ⟨fun i => if i = 0 then .running (.header,⟨[],fun _ => none⟩) [] (ascii "SE")
    else .running (.header,⟨[],fun _ => none⟩) (ascii "SE") [],rfl,fun i => ?_⟩
  cases i with
  | zero => exact .read 2 rfl (by decide) (by decide) (by decide)
  | succ i => exact .eof rfl (by decide)

end Autonomizer.ServeClient
