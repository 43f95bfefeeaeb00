import Mathlib
import Autonomizer.CPTransfer

/-! The select loops of CPClient::doGET and CPClient::doSET. select() takes the set it
is given away and puts the ready descriptors in its place. -/
namespace Autonomizer.ClientSelect
open CPIO (Bytes)
open CPTransfer (ascii)

inductive Select where
  | failed
  | timeout
  | ready (fds : Finset Nat)
  deriving DecidableEq

/- What select() can report for a set, and the set it leaves. -/
def Select.possible (readSockSet : Finset Nat) : Select → Prop
  | .ready fds => fds ⊆ readSockSet ∧ fds.Nonempty
  | _ => True

def Select.leaves (readSockSet : Finset Nat) : Select → Finset Nat
  | .failed => readSockSet
  | .timeout => ∅
  | .ready fds => fds

inductive After where
  | again
  | leave
  | assert
  deriving DecidableEq

def doGET (ts : Bytes) : After :=
  if ts = ascii "SET" then .again else if ts = ascii "EOF" then .leave else .assert

def doSET (ts : Bytes) : After := if ts = ascii "END" then .leave else .assert

/- One iteration, from the result of select() and the header read if there is one: the
set of the next iteration, or none when the loop is left or an assertion fails. -/
def iterate (loop : Bytes → After) (clientFD : Nat) (readSockSet : Finset Nat) (status : Select)
    (ts : Bytes) : Option (Finset Nat) :=
  let readSockSet := status.leaves readSockSet
  if status = .timeout then some readSockSet
  else if clientFD ∈ readSockSet then
    match loop ts with
    | .again => some readSockSet
    | _ => none
  else none

/- The sets given to the select() calls of a loop, the call in progress included. -/
def passed (loop : Bytes → After) (clientFD : Nat) :
    Finset Nat → List (Select × Bytes) → List (Finset Nat)
  | readSockSet,[] => [readSockSet]
  | readSockSet,(status,ts) :: rest =>
      readSockSet :: match iterate loop clientFD readSockSet status ts with
        | some next => passed loop clientFD next rest
        | none => []

def Possible (loop : Bytes → After) (clientFD : Nat) : Finset Nat → List (Select × Bytes) → Prop
  | _,[] => True
  | readSockSet,(status,ts) :: rest => status.possible readSockSet ∧
      match iterate loop clientFD readSockSet status ts with
      | some next => Possible loop clientFD next rest
      | none => rest = []

section
variable {loop : Bytes → After} {clientFD : Nat}

theorem neverReady {readSockSet : Finset Nat} {results : List (Select × Bytes)}
    (empty : readSockSet = ∅) (possible : Possible loop clientFD readSockSet results) :
    ∀ r ∈ results, ∀ fds, r.1 ≠ .ready fds := by
  induction results generalizing readSockSet with
  | nil => nofun
  | cons r rest ih =>
    obtain ⟨status,ts⟩ := r
    subst empty
    obtain ⟨here,more⟩ := possible
    have head : ∀ fds, status ≠ .ready fds := by
      rintro fds rfl
      obtain ⟨fd,inside⟩ := here.2
      exact absurd (here.1 inside) (Finset.notMem_empty fd)
    have left : status.leaves ∅ = ∅ := by
      cases status with
      | ready fds => exact absurd rfl (head fds)
      | _ => rfl
    intro x inside
    rcases List.mem_cons.mp inside with rfl | later
    · exact head
    · cases next : iterate loop clientFD ∅ status ts with
      | none =>
        simp only [next] at more
        rw [more] at later
        cases later
      | some set_ =>
        simp only [next] at more
        refine ih ?_ more x later
        simp only [iterate,left,Finset.notMem_empty,if_false] at next
        split at next
        · exact (Option.some.inj next).symm
        · cases next

theorem iterateKeeps {readSockSet next : Finset Nat} {status : Select} {ts : Bytes}
    (untimed : status ≠ .timeout) (ok : iterate loop clientFD readSockSet status ts = some next) :
    clientFD ∈ next := by
  simp only [iterate,if_neg untimed] at ok
  split at ok <;> try contradiction
  split at ok <;> try contradiction
  cases ok
  assumption

/- For every sequence of results: the set given to each select() call holds the socket
if and only if no call has timed out. -/
theorem watchesIffNoTimeout {results : List (Select × Bytes)} {readSockSet : Finset Nat}
    (watched : clientFD ∈ readSockSet) (possible : Possible loop clientFD readSockSet results) :
    (∀ set_ ∈ passed loop clientFD readSockSet results, clientFD ∈ set_) ↔
      ∀ r ∈ results, r.1 ≠ .timeout := by
  induction results generalizing readSockSet with
  | nil => simpa [passed] using watched
  | cons r rest ih =>
    obtain ⟨status,ts⟩ := r
    obtain ⟨_,more⟩ := possible
    simp only [passed,List.forall_mem_cons,watched,true_and]
    by_cases timed : status = .timeout
    · subst timed
      have next : iterate loop clientFD readSockSet .timeout ts = some ∅ := by
        simp [iterate,Select.leaves]
      simp only [next,ne_eq,not_true_eq_false,false_and,iff_false]
      intro all
      have first : ∅ ∈ passed loop clientFD ∅ rest := by
        cases rest <;> simp [passed]
      exact absurd (all ∅ first) (Finset.notMem_empty _)
    · cases next : iterate loop clientFD readSockSet status ts with
      | none =>
        simp only [next] at more
        subst more
        simp [timed]
      | some set_ =>
        simp only [next] at more
        simp only [ih (iterateKeeps timed next) more]
        exact ⟨fun h => ⟨timed,h⟩,fun h => h.2⟩

theorem wedgedAfter {before later : List (Select × Bytes)} {ts : Bytes} {readSockSet : Finset Nat}
    (possible : Possible loop clientFD readSockSet (before ++ (.timeout,ts) :: later)) :
    ∀ r ∈ later, ∀ fds, r.1 ≠ .ready fds := by
  induction before generalizing readSockSet with
  | nil =>
    have next : iterate loop clientFD readSockSet .timeout ts = some ∅ := by
      simp [iterate,Select.leaves]
    have more := possible.2
    simp only [next] at more
    exact neverReady rfl more
  | cons r rest ih =>
    have more := possible.2
    cases next : iterate loop clientFD readSockSet r.1 r.2 with
    | none => simp [next] at more
    | some set_ =>
      simp only [next] at more
      exact ih more

end

/- CPClient::start: FD_ZERO and FD_SET of the socket. -/
def start (clientFD : Nat) : Finset Nat := {clientFD}

/- In either session the set given to each select() call holds the socket if and only
if no call has timed out; after a timeout no call reports data any more. -/
theorem sessionWatchesIffNoTimeout (clientFD : Nat) : ∀ loop ∈ [doGET,doSET],
    ∀ results, Possible loop clientFD (start clientFD) results →
    ((∀ set_ ∈ passed loop clientFD (start clientFD) results, clientFD ∈ set_) ↔
      ∀ r ∈ results, r.1 ≠ .timeout) ∧
    ∀ before ts later, results = before ++ (.timeout,ts) :: later →
      ∀ r ∈ later, ∀ fds, r.1 ≠ .ready fds :=
  fun _ _ _ possible => ⟨watchesIffNoTimeout (Finset.mem_singleton_self clientFD) possible,
    fun _ _ _ shape => wedgedAfter (shape ▸ possible)⟩

/- Two files are received, and then there is nothing more to wait for. -/
def twoFiles : List (Select × Bytes) :=
  [(.ready {3},ascii "SET"),(.ready {3},ascii "SET"),(.ready {3},ascii "EOF")]

theorem sessionWatchesReady : Possible doGET 3 (start 3) twoFiles ∧
    ∀ set_ ∈ passed doGET 3 (start 3) twoFiles, 3 ∈ set_ := by
  have ready : (Select.ready {3}).possible (start 3) :=
    ⟨Finset.Subset.refl _,⟨3,Finset.mem_singleton_self 3⟩⟩
  have possible : Possible doGET 3 (start 3) twoFiles := ⟨ready,ready,ready,rfl⟩
  exact ⟨possible,(sessionWatchesIffNoTimeout 3 doGET (by simp) _ possible).1.mpr (by decide)⟩

/- One timeout empties the set of the next call. -/
theorem timeoutForgetsSocket :
    ¬ ∀ clientFD, ∀ loop ∈ [doGET,doSET],
      ∀ results, Possible loop clientFD (start clientFD) results →
      ∀ set_ ∈ passed loop clientFD (start clientFD) results, clientFD ∈ set_ := by
  intro always
  have held := always 3 doGET (by simp) [(.timeout,[])] ⟨trivial,trivial⟩ ∅
    (by simp [passed,iterate,Select.leaves])
  exact absurd held (Finset.notMem_empty 3)

end Autonomizer.ClientSelect
