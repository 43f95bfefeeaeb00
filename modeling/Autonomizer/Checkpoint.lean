import Mathlib
import Autonomizer.CPTransfer
import Autonomizer.PIInc
import Autonomizer.Trace

/-! The checkpoint protocol: PIContext::checkpoint and PIContext::restore in the
processes of one virtual machine, and CPServer outside it. The server handles one
session at a time; a CKP session is two steps, since a client can give up between
the snapshot and the reply. A SET or GET session transfers files exactly, so it is
one step, taken with its client. A revert brings back every process and file of
the virtual machine; the server, its directory and the connections stay. -/
namespace Autonomizer.Checkpoint
open CPIO (Bytes)
open PIInc Trace

abbrev Directory := Bytes → Option Bytes

/- A session's effect on the receiving directory. -/
def deliver (sent old : Directory) : Directory := fun name => (sent name).or (old name)

inductive Header where
  | get | set | ckp | res
  deriving DecidableEq, Repr

inductive Reply where
  | ckn | cky
  deriving DecidableEq, Repr

/- Where a process is: in the program, in the select of doCKP on a connection, or
in a session on a connection. -/
inductive Pc where
  | program
  | doCKP (conn : Nat)
  | doGET (conn : Nat)
  | doSET (conn : Nat)
  deriving DecidableEq, Repr

structure Client where
  status : Status
  checkpointed : Nat
  pc : Pc
  files : Directory

abbrev VM (ι : Type) := ι → Client

/- replying holds the connection of a handleCKP that has created the snapshot and
has not written CKY yet. snapshot is what snapshot-create of this run made. -/
structure Server (ι : Type) where
  ckptReq : Bool
  ckpted : Bool
  files : Directory
  snapshot : Option (VM ι)
  replying : Option Nat

structure System (ι : Type) where
  vm : VM ι
  server : Server ι
  requests : List (Nat × Header)
  replies : List (Nat × Reply)
  fresh : Nat

inductive Action (ι : Type) where
  | user (userIn : String)
  | checkpoint (i : ι)
  | restore (i : ι)
  | change (i : ι) (files : Directory)
  | timeout (i : ι)
  | readReply (i : ι) (reply : Reply)
  | handleCKP (conn : Nat)
  | replyCKY
  | handleRES (conn : Nat)
  | serveGET (i : ι) (conn : Nat)
  | serveSET (i : ι) (conn : Nat)

section
variable {ι : Type}

/- start(header): connect and write the header. -/
def System.connect (s : System ι) (header : Header) : System ι :=
  { s with requests := (s.fresh,header) :: s.requests, fresh := s.fresh + 1 }

@[simp] theorem connectVm (s : System ι) (h : Header) : (s.connect h).vm = s.vm := rfl

/- Every process is in its program, no flag is set and nothing is in flight. -/
structure Initial (s : System ι) : Prop where
  flag : ∀ i, (s.vm i).checkpointed = 0
  program : ∀ i, (s.vm i).pc = .program
  ckptReq : s.server.ckptReq = false
  ckpted : s.server.ckpted = false
  snapshot : s.server.snapshot = none
  replying : s.server.replying = none
  requests : s.requests = []
  replies : s.replies = []

/- A step of one process: the server and its replies stay. -/
structure Quiet (s t : System ι) : Prop where
  server : t.server = s.server
  replies : t.replies = s.replies

/- Every trace of a snapshot outside the server's store comes after it. -/
structure Backed (s : System ι) : Prop where
  ckpted : s.server.ckpted = true → s.server.snapshot.isSome
  replying : s.server.replying.isSome → s.server.snapshot.isSome
  reply : ∀ conn, (conn,Reply.cky) ∈ s.replies → s.server.ckpted = true

theorem initialBacked {s : System ι} (start : Initial s) : Backed s where
  ckpted h := by simp [start.ckpted] at h
  replying h := by simp [start.replying] at h
  reply conn h := by simp [start.replies] at h

theorem backedQuiet {s t : System ι} (quiet : Quiet s t) (backed : Backed s) : Backed t where
  ckpted := by rw [quiet.server]; exact backed.ckpted
  replying := by rw [quiet.server]; exact backed.replying
  reply := by rw [quiet.server,quiet.replies]; exact backed.reply

variable [DecidableEq ι]

def System.put (s : System ι) (i : ι) (c : Client) : System ι :=
  { s with vm := Function.update s.vm i c }

/- PIContext::checkpoint. -/
def checkpoint (s : System ι) (i : ι) : System ι :=
  let c := s.vm i
  if c.status ≠ .train then s
  else if c.checkpointed = 0 then (s.connect .ckp).put i { c with pc := .doCKP s.fresh }
  else s

/- checkpoint after start("CKP") returned cc. -/
def checkpointed (s : System ι) (i : ι) (cc : Nat) : System ι :=
  let c := s.vm i
  if cc = 0 then s.put i { c with pc := .program }
  else (s.connect .get).put i { c with checkpointed := 1, pc := .doGET s.fresh }

/- PIContext::restore. -/
def restore (s : System ι) (i : ι) : System ι :=
  let c := s.vm i
  if c.status ≠ .train then s
  else if c.checkpointed = 0 then s
  else (s.connect .set).put i { c with pc := .doSET s.fresh }

/- The cc doCKP returns for a reply. -/
def Reply.cc : Reply → Nat
  | .ckn => 0
  | .cky => 1

def handleCKP (s : System ι) (conn : Nat) : System ι :=
  let s := { s with requests := s.requests.erase (conn,.ckp) }
  if s.server.ckptReq then
    { s with server := { s.server with snapshot := some s.vm, replying := some conn } }
  else { s with replies := (conn,.ckn) :: s.replies }

def handleRES (s : System ι) (conn : Nat) : System ι :=
  let s := { s with requests := s.requests.erase (conn,.res) }
  if s.server.ckpted then
    match s.server.snapshot with
    | some vm => { s with vm := vm }
    | none => s
  else s

/- A disabled action has no result. -/
def step (s : System ι) : Action ι → Option (System ι)
  | .user userIn =>
      if s.server.replying = none then
        if userIn = "checkpoint" then some { s with server := { s.server with ckptReq := true } }
        else some s
      else none
  | .checkpoint i => if (s.vm i).pc = .program then some (checkpoint s i) else none
  | .restore i => if (s.vm i).pc = .program then some (restore s i) else none
  | .change i files => some (s.put i { s.vm i with files })
  -- select returns 0 only while no reply is readable
  | .timeout i =>
      match (s.vm i).pc with
      | .doCKP conn =>
          if ∀ r ∈ s.replies, r.1 ≠ conn then some (checkpointed s i 1) else none
      | _ => none
  | .readReply i reply =>
      match (s.vm i).pc with
      | .doCKP conn =>
          if (conn,reply) ∈ s.replies then
            some (checkpointed { s with replies := s.replies.erase (conn,reply) } i reply.cc)
          else none
      | _ => none
  | .handleCKP conn =>
      if s.server.replying = none ∧ (conn,Header.ckp) ∈ s.requests then some (handleCKP s conn)
      else none
  | .replyCKY =>
      match s.server.replying with
      | some conn => some { s with
          server := { s.server with ckptReq := false, ckpted := true, replying := none }
          replies := (conn,.cky) :: s.replies }
      | none => none
  | .handleRES conn =>
      if s.server.replying = none ∧ (conn,Header.res) ∈ s.requests then some (handleRES s conn)
      else none
  | .serveGET i conn =>
      if s.server.replying = none ∧ (conn,Header.get) ∈ s.requests ∧ (s.vm i).pc = .doGET conn then
        some ({ s with requests := s.requests.erase (conn,.get) }.put i
          { s.vm i with files := deliver s.server.files (s.vm i).files, pc := .program })
      else none
  -- restore goes on to start("RES"), which writes its header and returns
  | .serveSET i conn =>
      if s.server.replying = none ∧ (conn,Header.set) ∈ s.requests ∧ (s.vm i).pc = .doSET conn then
        let served := { s with
          requests := s.requests.erase (conn,.set)
          server := { s.server with files := deliver (s.vm i).files s.server.files } }
        some ((served.connect .res).put i { s.vm i with pc := .program })
      else none

@[simp] theorem putSame (s : System ι) (i : ι) (c : Client) : (s.put i c).vm i = c := by
  simp [System.put]

@[simp] theorem putOther {i j : ι} (other : j ≠ i) (s : System ι) (c : Client) :
    (s.put i c).vm j = s.vm j := by simp [System.put,other]

theorem checkpointQuiet (s : System ι) (i : ι) : Quiet s (checkpoint s i) := by
  unfold checkpoint
  dsimp only
  split_ifs <;> exact ⟨rfl,rfl⟩

theorem restoreQuiet (s : System ι) (i : ι) : Quiet s (restore s i) := by
  unfold restore
  dsimp only
  split_ifs <;> exact ⟨rfl,rfl⟩

theorem checkpointedQuiet (s : System ι) (i : ι) (cc : Nat) : Quiet s (checkpointed s i cc) := by
  unfold checkpointed
  dsimp only
  split_ifs <;> exact ⟨rfl,rfl⟩

theorem putFlags {s : System ι} {i : ι} {c : Client} (same : c.checkpointed = (s.vm i).checkpointed)
    (j : ι) : ((s.put i c).vm j).checkpointed = (s.vm j).checkpointed := by
  by_cases h : j = i
  · subst h; simp [same]
  · simp [h]

theorem checkpointFlags (s : System ι) (i j : ι) :
    ((checkpoint s i).vm j).checkpointed = (s.vm j).checkpointed := by
  unfold checkpoint
  dsimp only
  split_ifs
  · rfl
  · exact putFlags (by rfl) j
  · rfl

theorem restoreFlags (s : System ι) (i j : ι) :
    ((restore s i).vm j).checkpointed = (s.vm j).checkpointed := by
  unfold restore
  dsimp only
  split_ifs
  · rfl
  · rfl
  · exact putFlags (by rfl) j

theorem checkpointedFlags {s : System ι} {i j : ι} {cc : Nat} (other : j ≠ i ∨ cc = 0) :
    ((checkpointed s i cc).vm j).checkpointed = (s.vm j).checkpointed := by
  unfold checkpointed
  dsimp only
  split_ifs with none
  · exact putFlags (by rfl) j
  · rcases other with other | zero
    · simp [other]
    · exact absurd zero none

theorem stepBacked {s t : System ι} {a : Action ι} (backed : Backed s) (taken : step s a = some t) :
    Backed t := by
  cases a with
  | user userIn =>
    simp only [step] at taken
    split_ifs at taken <;> cases taken
    · exact ⟨backed.ckpted,backed.replying,backed.reply⟩
    · exact backed
  | checkpoint i =>
    simp only [step] at taken
    split_ifs at taken; cases taken
    exact backedQuiet (checkpointQuiet s i) backed
  | restore i =>
    simp only [step] at taken
    split_ifs at taken; cases taken
    exact backedQuiet (restoreQuiet s i) backed
  | change i files =>
    cases taken
    exact backedQuiet (s := s) ⟨rfl,rfl⟩ backed
  | timeout i =>
    simp only [step] at taken
    split at taken <;> try contradiction
    split_ifs at taken; cases taken
    exact backedQuiet (checkpointedQuiet s i 1) backed
  | readReply i reply =>
    simp only [step] at taken
    split at taken <;> try contradiction
    split_ifs at taken; cases taken
    refine backedQuiet (checkpointedQuiet _ i reply.cc) ⟨backed.ckpted,backed.replying,?_⟩
    intro conn member
    exact backed.reply conn (List.mem_of_mem_erase member)
  | handleCKP conn =>
    simp only [step] at taken
    split_ifs at taken; cases taken
    unfold handleCKP
    dsimp only
    split_ifs
    · exact ⟨fun _ => rfl,fun _ => rfl,backed.reply⟩
    · refine ⟨backed.ckpted,backed.replying,?_⟩
      intro c member
      rcases List.mem_cons.mp member with same | old
      · cases same
      · exact backed.reply c old
  | replyCKY =>
    simp only [step] at taken
    split at taken <;> try contradiction
    rename_i conn open_
    cases taken
    have made := backed.replying (by simp [open_])
    exact ⟨fun _ => made,fun _ => made,fun _ _ => rfl⟩
  | handleRES conn =>
    simp only [step] at taken
    split_ifs at taken; cases taken
    unfold handleRES
    dsimp only
    split_ifs
    · split <;> exact ⟨backed.ckpted,backed.replying,backed.reply⟩
    · exact ⟨backed.ckpted,backed.replying,backed.reply⟩
  | serveGET i conn =>
    simp only [step] at taken
    split_ifs at taken; cases taken
    exact backedQuiet (s := s) ⟨rfl,rfl⟩ backed
  | serveSET i conn =>
    simp only [step] at taken
    split_ifs at taken; cases taken
    exact ⟨backed.ckpted,backed.replying,backed.reply⟩

abbrev everyStep (_ : System ι) (_ : Action ι) : Prop := True

theorem runBacked {start s : System ι} {acts} (initial : Initial start)
    (run : Run step everyStep start acts s) : Backed s :=
  runKeeps Backed (fun _ backed taken => stepBacked backed taken) run (initialBacked initial)

theorem reverts {s t : System ι} {conn : Nat} {vm : VM ι} (ckpted : s.server.ckpted = true)
    (made : s.server.snapshot = some vm) (taken : step s (.handleRES conn) = some t) :
    t.vm = vm ∧ t.server = s.server := by
  simp only [step] at taken
  split_ifs at taken; cases taken
  simp [handleRES,ckpted,made]

theorem keepsWithoutCkpted {s t : System ι} {conn : Nat} (ckpted : s.server.ckpted = false)
    (taken : step s (.handleRES conn) = some t) : t.vm = s.vm := by
  simp only [step] at taken
  split_ifs at taken; cases taken
  simp [handleRES,ckpted]

theorem flagRaised {s t : System ι} {a : Action ι} {i : ι} (backed : Backed s)
    (taken : step s a = some t) (before : (s.vm i).checkpointed ≠ 1)
    (after : (t.vm i).checkpointed = 1) :
    a = .timeout i ∨ s.server.ckpted = true ∧ s.server.snapshot.isSome := by
  have unchanged : (t.vm i).checkpointed ≠ (s.vm i).checkpointed := fun same =>
    before (same ▸ after)
  cases a with
  | user userIn =>
    simp only [step] at taken
    split_ifs at taken <;> cases taken <;> exact absurd rfl unchanged
  | checkpoint j =>
    simp only [step] at taken
    split_ifs at taken; cases taken
    exact absurd (checkpointFlags s j i) unchanged
  | restore j =>
    simp only [step] at taken
    split_ifs at taken; cases taken
    exact absurd (restoreFlags s j i) unchanged
  | change j files =>
    cases taken
    exact absurd (putFlags (by rfl) i) unchanged
  | timeout j =>
    simp only [step] at taken
    split at taken <;> try contradiction
    split_ifs at taken; cases taken
    by_cases same : i = j
    · exact .inl (same ▸ rfl)
    · exact absurd (checkpointedFlags (.inl same)) unchanged
  | readReply j reply =>
    simp only [step] at taken
    split at taken <;> try contradiction
    split_ifs at taken with member; cases taken
    cases reply with
    | ckn => exact absurd (checkpointedFlags (.inr rfl)) unchanged
    | cky =>
      have set_ := backed.reply _ member
      exact .inr ⟨set_,backed.ckpted set_⟩
  | handleCKP conn =>
    simp only [step] at taken
    split_ifs at taken; cases taken
    refine absurd ?_ unchanged
    unfold handleCKP
    dsimp only
    split_ifs <;> rfl
  | replyCKY =>
    simp only [step] at taken
    split at taken <;> try contradiction
    cases taken
    exact absurd rfl unchanged
  | handleRES conn =>
    cases ckpted : s.server.ckpted with
    | true => exact .inr ⟨rfl,backed.ckpted ckpted⟩
    | false => exact absurd (by rw [keepsWithoutCkpted ckpted taken]) unchanged
  | serveGET j conn =>
    simp only [step] at taken
    split_ifs at taken; cases taken
    exact absurd (putFlags (by rfl) i) unchanged
  | serveSET j conn =>
    simp only [step] at taken
    split_ifs at taken; cases taken
    exact absurd (putFlags (by rfl) i) unchanged

theorem stepStore {s t : System ι} {a : Action ι} (taken : step s a = some t) :
    (t.server.snapshot = s.server.snapshot ∨
      ∃ conn, a = .handleCKP conn ∧ s.server.ckptReq = true ∧ t.server.snapshot = some s.vm) ∧
    (t.server.files = s.server.files ∨
      ∃ i conn, a = .serveSET i conn ∧ t.server.files = deliver (s.vm i).files s.server.files) := by
  cases a with
  | user userIn =>
    simp only [step] at taken
    split_ifs at taken <;> cases taken <;> exact ⟨.inl rfl,.inl rfl⟩
  | checkpoint i =>
    simp only [step] at taken
    split_ifs at taken; cases taken
    simp [(checkpointQuiet s i).server]
  | restore i =>
    simp only [step] at taken
    split_ifs at taken; cases taken
    simp [(restoreQuiet s i).server]
  | change i files => cases taken; exact ⟨.inl rfl,.inl rfl⟩
  | timeout i =>
    simp only [step] at taken
    split at taken <;> try contradiction
    split_ifs at taken; cases taken
    simp [(checkpointedQuiet s i 1).server]
  | readReply i reply =>
    simp only [step] at taken
    split at taken <;> try contradiction
    split_ifs at taken; cases taken
    simp [(checkpointedQuiet _ i reply.cc).server]
  | handleCKP conn =>
    simp only [step] at taken
    split_ifs at taken; cases taken
    unfold handleCKP
    dsimp only
    split_ifs with req
    · exact ⟨.inr ⟨conn,rfl,req,rfl⟩,.inl rfl⟩
    · exact ⟨.inl rfl,.inl rfl⟩
  | replyCKY =>
    simp only [step] at taken
    split at taken <;> try contradiction
    cases taken
    exact ⟨.inl rfl,.inl rfl⟩
  | handleRES conn =>
    simp only [step] at taken
    split_ifs at taken; cases taken
    unfold handleRES
    dsimp only
    split_ifs
    · split <;> exact ⟨.inl rfl,.inl rfl⟩
    · exact ⟨.inl rfl,.inl rfl⟩
  | serveGET i conn =>
    simp only [step] at taken
    split_ifs at taken; cases taken
    exact ⟨.inl rfl,.inl rfl⟩
  | serveSET i conn =>
    simp only [step] at taken
    split_ifs at taken; cases taken
    exact ⟨.inl rfl,.inr ⟨i,conn,rfl,rfl⟩⟩

/- In every run a flag is raised only by the timeout of its own doCKP select or
after the server created the snapshot and set ckpted, and RES reverts to a created snapshot. -/
theorem flagOrTimeout {start s : System ι} {acts : List (Action ι)} (initial : Initial start)
    (run : Run step everyStep start acts s) :
    (∀ a t i, step s a = some t → (s.vm i).checkpointed ≠ 1 → (t.vm i).checkpointed = 1 →
      a = .timeout i ∨ s.server.ckpted = true ∧ s.server.snapshot.isSome) ∧
    (∀ conn t, step s (.handleRES conn) = some t →
      (s.server.ckpted = false → t.vm = s.vm) ∧
      (s.server.ckpted = true → s.server.snapshot = some t.vm)) := by
  have backed := runBacked initial run
  constructor
  · exact fun _ _ _ taken before after => flagRaised backed taken before after
  · intro conn t taken
    refine ⟨fun clear => keepsWithoutCkpted clear taken,fun ckpted => ?_⟩
    obtain ⟨vm,made⟩ := Option.isSome_iff_exists.mp (backed.ckpted ckpted)
    rw [made,(reverts ckpted made taken).1]

end

def idle : System Unit where
  vm := fun _ => ⟨.train,0,.program,fun _ => none⟩
  server := ⟨false,false,fun _ => none,none,none⟩
  requests := []
  replies := []
  fresh := 0

theorem idleInitial : Initial idle :=
  ⟨fun _ => rfl,fun _ => rfl,rfl,rfl,rfl,rfl,rfl,rfl⟩

theorem flagOrTimeoutAnswered : ∃ s t, Run step everyStep idle
      [.user "checkpoint",.checkpoint (),.handleCKP 0,.replyCKY] s ∧
    step s (.readReply () .cky) = some t ∧ (t.vm ()).checkpointed = 1 ∧
    s.server.ckpted = true ∧ s.server.snapshot.isSome := by
  have run : Run step everyStep idle [.user "checkpoint",.checkpoint (),.handleCKP 0,.replyCKY] _ :=
    .act trivial rfl (.act trivial rfl (.act trivial rfl (.act trivial rfl (.done _))))
  refine ⟨_,_,run,rfl,rfl,?_⟩
  have raised := (flagOrTimeout idleInitial run).1 (.readReply () .cky) _ () rfl (by decide) rfl
  rcases raised with timeout | made
  · cases timeout
  · exact made

/- The server is silent for a second: the flag is set, and there is no snapshot. -/
theorem silenceRaisesFlag :
    ¬ ∀ (acts : List (Action Unit)) (s : System Unit), Run step everyStep idle acts s →
      (s.vm ()).checkpointed = 1 → s.server.snapshot.isSome := by
  intro sound
  have run : Run step everyStep idle [.checkpoint (),.timeout ()]
      (checkpointed (checkpoint idle ()) () 1) := .act trivial rfl (runOne trivial rfl)
  have made := sound _ _ run rfl
  exact absurd made (by decide)

def entries (fileDir : Bytes) (disk : CPTransfer.Disk) : Directory := fun name =>
  if CPTransfer.FileName name then disk (CPTransfer.locate fileDir name) else none

theorem copiedDelivers {sdir rdir : Bytes} {sent old new : CPTransfer.Disk}
    (copied : CPTransfer.Copied sdir sent rdir old new) :
    entries rdir new = deliver (entries sdir sent) (entries rdir old) := by
  funext name
  by_cases valid : CPTransfer.FileName name
  · simp only [entries,deliver,if_pos valid]
    cases found : sent (CPTransfer.locate sdir name) with
    | none =>
      have apart : ∀ n, CPTransfer.FileName n → (sent (CPTransfer.locate sdir n)).isSome →
          CPTransfer.locate rdir name ≠ CPTransfer.locate rdir n := by
        intro n good present same
        rw [← CPTransfer.locateInjective valid good same,found] at present
        cases present
      rw [copied.others _ apart]
      rfl
    | some file => rw [copied.sent name valid file found]; rfl
  · simp [entries,deliver,valid]

/-! One process and its files in the virtual machine, over any number of reverts. -/

def Waiting (c : Client) : Prop := c.checkpointed = 0 ∧ ∃ conn, c.pc = .doCKP conn

/- A snapshot is taken only while the process waits in doCKP with no flag. -/
def Attended (s : System Unit) (a : Action Unit) : Prop :=
  ∀ conn, a = .handleCKP conn → s.server.ckptReq = true → Waiting (s.vm ())

def Resumable (s : System Unit) : Prop := ∀ vm, s.server.snapshot = some vm → Waiting (vm ())

theorem stepResumable {s t : System Unit} {a : Action Unit} (ok : Attended s a)
    (resumable : Resumable s) (taken : step s a = some t) : Resumable t := by
  intro vm made
  rcases (stepStore taken).1 with same | ⟨conn,handled,req,snapshot⟩
  · exact resumable vm (same ▸ made)
  · rw [snapshot] at made
    cases made
    exact ok conn handled req

theorem runResumable {start s : System Unit} {acts} (initial : Initial start)
    (run : Run step Attended start acts s) : Resumable s := by
  refine runKeeps Resumable (fun ok resumable taken => stepResumable ok resumable taken) run ?_
  intro vm made
  simp [initial.snapshot] at made

theorem attendedBacked {start s : System Unit} {acts} (initial : Initial start)
    (run : Run step Attended start acts s) : Backed s :=
  runKeeps Backed (fun _ backed taken => stepBacked backed taken) run (initialBacked initial)

def Action.isGET {ι : Type} : Action ι → Bool
  | .serveGET _ _ => true
  | _ => false

def Action.isSET {ι : Type} : Action ι → Bool
  | .serveSET _ _ => true
  | _ => false

theorem runStore {start s : System Unit} {acts} (run : Run step Attended start acts s)
    (noSET : ∀ a ∈ acts, a.isSET = false) : s.server.files = start.server.files := by
  refine runKeepsAmong (fun s => s.server.files = start.server.files) ?_ run noSET rfl
  intro s a t _ other same taken
  rcases (stepStore taken).2 with kept | ⟨i,conn,set,_⟩
  · rw [kept,same]
  · subst set; cases other

/- Between a revert and the GET session after it: the flag is clear until a
timeout or a reply raises it, and then the only way on is that session. -/
def Forgetful (c : Client) : Prop :=
  (c.checkpointed = 0 ∧ (c.pc = .program ∨ ∃ conn, c.pc = .doCKP conn)) ∨
    (c.checkpointed = 1 ∧ ∃ conn, c.pc = .doGET conn)

structure Recovering (s : System Unit) : Prop where
  resumable : Resumable s
  client : Forgetful (s.vm ())

theorem waitingForgetful {c : Client} (waiting : Waiting c) : Forgetful c :=
  .inl ⟨waiting.1,.inr waiting.2⟩

theorem checkpointedForgetful (s : System Unit) (cc : Nat)
    (clear : (s.vm ()).checkpointed = 0) : Forgetful ((checkpointed s () cc).vm ()) := by
  unfold checkpointed
  dsimp only
  split_ifs
  · rw [putSame]; exact .inl ⟨clear,.inl rfl⟩
  · rw [putSame]; exact .inr ⟨rfl,_,rfl⟩

theorem forgetfulWaits {c : Client} {conn : Nat} (forgetful : Forgetful c)
    (waits : c.pc = .doCKP conn) : c.checkpointed = 0 := by
  rcases forgetful with ⟨clear,_⟩ | ⟨_,_,get⟩
  · exact clear
  · rw [waits] at get; cases get

theorem forgetfulRuns {c : Client} (forgetful : Forgetful c) (runs : c.pc = .program) :
    c.checkpointed = 0 := by
  rcases forgetful with ⟨clear,_⟩ | ⟨_,_,get⟩
  · exact clear
  · rw [runs] at get; cases get

theorem stepRecovering {s t : System Unit} {a : Action Unit} (ok : Attended s a)
    (noGET : a.isGET = false) (recovering : Recovering s) (taken : step s a = some t) :
    Recovering t ∧ a.isSET = false := by
  have client := recovering.client
  have resumable := stepResumable ok recovering.resumable taken
  cases a with
  | user userIn =>
    simp only [step] at taken
    split_ifs at taken <;> cases taken <;> exact ⟨⟨resumable,client⟩,rfl⟩
  | checkpoint i =>
    simp only [step] at taken
    split_ifs at taken with runs; cases taken
    have clear := forgetfulRuns client runs
    refine ⟨⟨resumable,?_⟩,rfl⟩
    unfold checkpoint
    dsimp only
    split_ifs
    · exact client
    · rw [putSame]; exact .inl ⟨clear,.inr ⟨_,rfl⟩⟩
  | restore i =>
    simp only [step] at taken
    split_ifs at taken with runs; cases taken
    have clear := forgetfulRuns client runs
    refine ⟨⟨resumable,?_⟩,rfl⟩
    unfold restore
    dsimp only
    rw [if_pos clear]
    split_ifs <;> exact client
  | change i files =>
    cases taken
    exact ⟨⟨resumable,by rw [putSame]; exact client⟩,rfl⟩
  | timeout i =>
    simp only [step] at taken
    split at taken <;> try contradiction
    rename_i conn waits
    split_ifs at taken; cases taken
    exact ⟨⟨resumable,checkpointedForgetful s 1 (forgetfulWaits client waits)⟩,rfl⟩
  | readReply i reply =>
    simp only [step] at taken
    split at taken <;> try contradiction
    rename_i conn waits
    split_ifs at taken; cases taken
    exact ⟨⟨resumable,checkpointedForgetful _ reply.cc (forgetfulWaits client waits)⟩,rfl⟩
  | handleCKP conn =>
    simp only [step] at taken
    split_ifs at taken; cases taken
    refine ⟨⟨resumable,?_⟩,rfl⟩
    unfold handleCKP
    dsimp only
    split_ifs <;> exact client
  | replyCKY =>
    simp only [step] at taken
    split at taken <;> try contradiction
    cases taken
    exact ⟨⟨resumable,client⟩,rfl⟩
  | handleRES conn =>
    simp only [step] at taken
    split_ifs at taken; cases taken
    refine ⟨⟨resumable,?_⟩,rfl⟩
    unfold handleRES
    dsimp only
    split_ifs
    · split
      · rename_i vm made
        exact waitingForgetful (recovering.resumable vm made)
      · exact client
    · exact client
  | serveGET i conn => cases noGET
  | serveSET i conn =>
    simp only [step] at taken
    split_ifs at taken with enabled
    rcases client with ⟨_,runs | ⟨_,waits⟩⟩ | ⟨_,_,gets⟩
    · rw [enabled.2.2] at runs; cases runs
    · rw [enabled.2.2] at waits; cases waits
    · rw [enabled.2.2] at gets; cases gets

theorem runRecovering {s t : System Unit} {acts} (run : Run step Attended s acts t)
    (noGET : ∀ a ∈ acts, a.isGET = false) (recovering : Recovering s) :
    Recovering t ∧ t.server.files = s.server.files := by
  refine runKeepsAmong (fun u => Recovering u ∧ u.server.files = s.server.files) ?_ run noGET
    ⟨recovering,rfl⟩
  intro u a v ok other ⟨inv,same⟩ taken
  obtain ⟨next,noSET⟩ := stepRecovering ok other inv taken
  refine ⟨next,?_⟩
  rcases (stepStore taken).2 with kept | ⟨i,conn,set,_⟩
  · rw [kept,same]
  · subst set; cases noSET

theorem deliverSent {sent old : Directory} {name file : Bytes} (found : sent name = some file) :
    deliver sent old name = some file := by simp [deliver,found]

theorem recovered {s t : System Unit} {conn : Nat} (recovering : Recovering s)
    (taken : step s (.serveGET () conn) = some t) :
    (t.vm ()).files = deliver s.server.files (s.vm ()).files ∧ (t.vm ()).checkpointed = 1 := by
  simp only [step] at taken
  split_ifs at taken with enabled; cases taken
  rw [putSame]
  refine ⟨rfl,?_⟩
  rcases recovering.client with ⟨_,runs | ⟨_,waits⟩⟩ | ⟨raised,_⟩
  · rw [enabled.2.2] at runs; cases runs
  · rw [enabled.2.2] at waits; cases waits
  · exact raised

/- set is the last SET session before revert and get the first GET session after
it; what the process sent in set it has again after get, with its flag set. -/
theorem newestDataSurvive {start s₁ s₂ s₃ s₄ s₅ s₆ : System Unit}
    {before between after : List (Action Unit)} {c d e : Nat} (initial : Initial start)
    (run₁ : Run step Attended start before s₁)
    (set : step s₁ (.serveSET () c) = some s₂)
    (run₂ : Run step Attended s₂ between s₃) (last : ∀ a ∈ between, a.isSET = false)
    (ckpted : s₃.server.ckpted = true) (revert : step s₃ (.handleRES d) = some s₄)
    (run₃ : Run step Attended s₄ after s₅) (first : ∀ a ∈ after, a.isGET = false)
    (get : step s₅ (.serveGET () e) = some s₆) :
    (∀ name file, (s₁.vm ()).files name = some file → (s₆.vm ()).files name = some file) ∧
      (s₆.vm ()).checkpointed = 1 := by
  have attendedSet : Attended s₁ (.serveSET () c) := fun _ other => by cases other
  have run : Run step Attended start (before ++ .serveSET () c :: between) s₃ :=
    runAppend run₁ (.act attendedSet set run₂)
  have resumable := runResumable initial run
  obtain ⟨vm,made⟩ := Option.isSome_iff_exists.mp ((attendedBacked initial run).ckpted ckpted)
  obtain ⟨vmBack,serverKept⟩ := reverts ckpted made revert
  have recovering : Recovering s₄ := by
    refine ⟨?_,?_⟩
    · intro v m
      rw [serverKept] at m
      exact resumable v m
    · rw [vmBack]
      exact waitingForgetful (resumable vm made)
  obtain ⟨ready,kept⟩ := runRecovering run₃ first recovering
  obtain ⟨files,flag⟩ := recovered ready get
  have stored : s₂.server.files = deliver (s₁.vm ()).files s₁.server.files := by
    simp only [step] at set
    split_ifs at set; cases set
    rfl
  refine ⟨fun name file sent => ?_,flag⟩
  rw [files,kept,serverKept,runStore run₂ last,stored]
  exact deliverSent (deliverSent sent)

/- One cycle: the files change after the SET session and come back with the GET. -/
theorem newestDataSurviveOnce :
    let files : Directory := fun name => if name = [97] then some [1,2] else none
    ∃ s, Run step Attended idle [.user "checkpoint",.checkpoint (),.handleCKP 0,.replyCKY,
        .readReply () .cky,.serveGET () 1,.change () files,.restore (),.serveSET () 2,
        .change () (fun _ => none),.handleRES 3,.timeout (),.serveGET () 4] s ∧
      (s.vm ()).files [97] = some [1,2] ∧ (s.vm ()).checkpointed = 1 := by
  intro files
  have other {a : Action Unit} {s} (no : ∀ conn, a ≠ .handleCKP conn) : Attended s a :=
    fun conn same => absurd same (no conn)
  have run₁ : Run step Attended idle [.user "checkpoint",.checkpoint (),.handleCKP 0,.replyCKY,
      .readReply () .cky,.serveGET () 1,.change () files,.restore ()] _ :=
    .act (other nofun) rfl <| .act (other nofun) rfl <|
    .act (fun _ _ _ => ⟨rfl,0,rfl⟩) rfl <| .act (other nofun) rfl <| .act (other nofun) rfl <|
    .act (other nofun) rfl <| .act (other nofun) rfl <| .act (other nofun) rfl <| .done _
  have survived := newestDataSurvive (c := 2) (d := 3) (e := 4) idleInitial run₁ rfl
    (runOne (a := .change () (fun _ => none)) (other nofun) rfl) (by simp [Action.isSET]) rfl rfl
    (runOne (a := .timeout ()) (other nofun) rfl) (by simp [Action.isGET]) rfl
  refine ⟨_,runAppend run₁ (.act (other nofun) rfl (.act (other nofun) rfl
    (.act (other nofun) rfl (.act (other nofun) rfl (runOne (other nofun) rfl))))),?_,survived.2⟩
  exact survived.1 [97] [1,2] rfl

end Autonomizer.Checkpoint
