import Mathlib

/-! CPIO::cpRead and CPIO::cpWrite over an arbitrary sequence of results of the
read() and write() calls below them. Addresses are relative to the caller's
buffer, so an address below zero or past the requested length lies outside it.
The loop updates its length and pointer before it looks at the result code. -/
namespace Autonomizer.CPIO

abbrev Bytes := List UInt8

def intMax : Int := 2147483647

inductive Errno where
  | eagain
  | other (code : Nat)
  deriving DecidableEq, Repr

/- What one system call reports: a byte count, or -1 with errno set. -/
inductive SysResult where
  | count (n : Nat)
  | error (errno : Errno)
  deriving DecidableEq, Repr

def SysResult.value : SysResult → Int
  | .count n => n
  | .error _ => -1

def SysResult.moved : SysResult → Nat
  | .count n => n
  | .error _ => 0

def SysResult.isAgain : SysResult → Bool
  | .error .eagain => true
  | _ => false

inductive Outcome (σ : Type) where
  | returned (state : σ) (value : Int) (unused : List SysResult)
  | waiting
  | asserted
  | overflowed
  | impossible
  deriving Repr

section Loop
variable {σ : Type} (sys : σ → Int → SysResult → Option σ)

/- The body shared by cpRead and cpWrite. One element of the result list is one
iteration; the call is still inside the loop when the list ends early. -/
def transfer : List SysResult → σ → (len ptr : Int) → Outcome σ
  | [], s, len, ptr => if len = 0 then .returned s ptr [] else .waiting
  | r :: rest, s, len, ptr =>
      if len = 0 then .returned s ptr (r :: rest) else
      match sys s ptr r with
      | none => .impossible
      | some s' =>
          let len' := len - r.value
          let ptr' := ptr + r.value
          if intMax < len' then .overflowed
          -- errno is only meaningful when the call reported -1
          else if r.value < len' ∧ ¬ (r.isAgain ∨ 0 ≤ r.value) then .asserted
          else transfer rest s' len' ptr'

def moved (results : List SysResult) : Nat := (results.map SysResult.moved).sum

def agains (results : List SysResult) : Nat := results.countP SysResult.isAgain

/- Each result is a positive count within the bytes asked for, or -1/EAGAIN. -/
def Admissible : List SysResult → Int → Prop
  | [], _ => True
  | .count n :: rest, len => 0 < n ∧ (n : Int) ≤ len ∧ Admissible rest (len - n)
  | .error e :: rest, len => e = .eagain ∧ Admissible rest (len + 1)

instance decideAdmissible : (results : List SysResult) → (len : Int) → Decidable (Admissible results len)
  | [], _ => isTrue trivial
  | .count n :: rest, len =>
      have := decideAdmissible rest (len - n)
      inferInstanceAs (Decidable (0 < n ∧ (n : Int) ≤ len ∧ Admissible rest (len - n)))
  | .error e :: rest, len =>
      have := decideAdmissible rest (len + 1)
      inferInstanceAs (Decidable (e = .eagain ∧ Admissible rest (len + 1)))

def NoAgain (results : List SysResult) : Prop := ∀ r ∈ results, r.isAgain = false
instance (results) : Decidable (NoAgain results) := by unfold NoAgain; infer_instance

theorem noAgainCount {results} (none : NoAgain results) : agains results = 0 := by
  simpa [agains,NoAgain,List.countP_eq_zero] using none

theorem countNoAgain {results} (zero : agains results = 0) : NoAgain results := by
  simpa [agains,NoAgain,List.countP_eq_zero] using zero

variable {sys}

theorem admissibleCount {results len} (admissible : Admissible results len)
    (quiet : NoAgain results) : ∀ r ∈ results, ∃ n, r = .count n := by
  induction results generalizing len with
  | nil => simp
  | cons r rest ih =>
    have restQuiet : NoAgain rest := fun x hx => quiet x (List.mem_cons_of_mem _ hx)
    intro x hx
    cases r with
    | error e =>
      have again : (SysResult.error e).isAgain = false := quiet _ List.mem_cons_self
      rw [admissible.1] at again
      contradiction
    | count n =>
      rcases List.mem_cons.mp hx with rfl | inside
      · exact ⟨n,rfl⟩
      · exact ih admissible.2.2 restQuiet x inside

/- Every EAGAIN lengthens the request by one byte, so a call that returns has
moved the requested bytes and one more for each EAGAIN it met. -/
theorem transferBalance {results s len ptr s' v} (admissible : Admissible results len)
    (ok : transfer sys results s len ptr = .returned s' v []) :
    v = ptr + len ∧ (moved results : Int) = len + agains results := by
  induction results generalizing s len ptr with
  | nil =>
    unfold transfer at ok
    split at ok
    · rename_i zero
      cases ok
      simp [moved,agains,zero]
    · contradiction
  | cons r rest ih =>
    unfold transfer at ok
    split at ok
    · cases ok
    · cases called : sys s ptr r with
      | none => simp [called] at ok
      | some next =>
        simp only [called] at ok
        split at ok
        · contradiction
        · split at ok
          · contradiction
          · cases r with
            | count n =>
              obtain ⟨_,_,tail⟩ := admissible
              have rest := ih tail ok
              simp only [SysResult.value,moved,agains,List.map_cons,List.sum_cons,SysResult.moved,
                List.countP_cons,SysResult.isAgain] at rest ⊢
              simp only [Nat.cast_add,Bool.false_eq_true,if_false,Nat.add_zero]
              exact ⟨by omega,by omega⟩
            | error e =>
              obtain ⟨rfl,tail⟩ := admissible
              have step : len - (SysResult.error .eagain).value = len + 1 := by
                simp only [SysResult.value]; omega
              rw [step] at ok
              have rest := ih tail ok
              simp only [SysResult.value,moved,agains,List.map_cons,List.sum_cons,SysResult.moved,
                List.countP_cons,SysResult.isAgain] at rest ⊢
              simp only [Nat.cast_add,Nat.cast_one,if_true,Nat.zero_add]
              exact ⟨by omega,by omega⟩

theorem transferCount {n rest s len ptr s' v}
    (ok : transfer sys (.count n :: rest) s len ptr = .returned s' v []) :
    ∃ next, sys s ptr (.count n) = some next ∧
      transfer sys rest next (len - n) (ptr + n) = .returned s' v [] := by
  unfold transfer at ok
  split at ok
  · cases ok
  · cases called : sys s ptr (.count n) with
    | none => simp [called] at ok
    | some next =>
      simp only [called] at ok
      split at ok
      · contradiction
      · split at ok
        · contradiction
        · exact ⟨next,rfl,ok⟩

end Loop

def addresses (ptr : Int) (n : Nat) : List Int := (List.range n).map (fun i : Nat => ptr + (i : Int))

theorem addressesAppend (ptr : Int) (a b : Nat) :
    addresses ptr (a+b) = addresses ptr a ++ addresses (ptr+a) b := by
  simp only [addresses,List.range_add,List.map_append,List.map_map]
  congr 1
  apply List.map_congr_left
  intro i _
  simp only [Function.comp_apply]
  omega

theorem addressInside {ptr n a} : a ∈ addresses ptr n ↔ ptr ≤ a ∧ a < ptr + n := by
  constructor
  · intro member
    obtain ⟨i,inside,rfl⟩ := List.mem_map.mp member
    have bound := List.mem_range.mp inside
    omega
  · rintro ⟨lower,upper⟩
    exact List.mem_map.mpr ⟨(a-ptr).toNat,List.mem_range.mpr (by omega),by omega⟩

def poke (mem : Int → UInt8) (ptr : Int) (bytes : Bytes) : Int → UInt8 := fun a =>
  if ptr ≤ a ∧ a < ptr + bytes.length then bytes.getD (a-ptr).toNat 0 else mem a

theorem pokeOutside {mem ptr bytes a} (out : a ∉ addresses ptr bytes.length) :
    poke mem ptr bytes a = mem a := by
  rw [addressInside] at out
  exact if_neg out

theorem pokeInside (mem : Int → UInt8) (ptr : Int) (bytes : Bytes) :
    (addresses ptr bytes.length).map (poke mem ptr bytes) = bytes := by
  apply List.ext_getElem
  · simp [addresses]
  · intro i left right
    have bound : ptr ≤ ptr + (i:Int) ∧ ptr + (i:Int) < ptr + bytes.length := by omega
    simp only [addresses,List.map_map,List.getElem_map,List.getElem_range,Function.comp_apply,poke]
    rw [if_pos bound]
    simp [List.getD_eq_getElem?_getD,List.getElem?_eq_getElem right]

structure Reader where
  mem : Int → UInt8
  stream : Bytes
  touched : List Int

structure Writer where
  mem : Int → UInt8
  sent : Bytes
  touched : List Int

/- read(): a count no larger than what is asked and available is copied to ptr. -/
def read (s : Reader) (ptr : Int) : SysResult → Option Reader
  | .count n =>
      if n ≤ s.stream.length then
        some ⟨poke s.mem ptr (s.stream.take n),s.stream.drop n,s.touched ++ addresses ptr n⟩
      else none
  | .error _ => some s

def write (s : Writer) (ptr : Int) : SysResult → Option Writer
  | .count n =>
      some ⟨s.mem,s.sent ++ (addresses ptr n).map s.mem,s.touched ++ addresses ptr n⟩
  | .error _ => some s

def cpRead (s : Reader) (readLen : Int) (results : List SysResult) : Outcome Reader :=
  transfer read results s readLen 0

def cpWrite (s : Writer) (writeLen : Int) (results : List SysResult) : Outcome Writer :=
  transfer write results s writeLen 0

/- What an exact call leaves behind: the value n, the next n bytes in the buffer,
n bytes gone from the stream, and no access outside the n bytes. -/
structure ReadExact (n : Nat) (s s' : Reader) (v : Int) : Prop where
  value : v = n
  available : n ≤ s.stream.length
  bytes : (addresses 0 n).map s'.mem = s.stream.take n
  consumed : s'.stream = s.stream.drop n
  inside : ∀ a ∈ s'.touched, a ∈ s.touched ∨ (0 ≤ a ∧ a < n)

structure WriteExact (n : Nat) (s s' : Writer) (v : Int) : Prop where
  value : v = n
  unchanged : s'.mem = s.mem
  bytes : s'.sent = s.sent ++ (addresses 0 n).map s.mem
  inside : ∀ a ∈ s'.touched, a ∈ s.touched ∨ (0 ≤ a ∧ a < n)

theorem readConsumed {results s len ptr s' v}
    (ok : transfer read results s len ptr = .returned s' v []) :
    moved results ≤ s.stream.length ∧ s'.stream = s.stream.drop (moved results) := by
  induction results generalizing s len ptr with
  | nil =>
    unfold transfer at ok
    split at ok <;> cases ok
    simp [moved]
  | cons r rest ih =>
    unfold transfer at ok
    split at ok
    · cases ok
    · cases called : read s ptr r with
      | none => simp [called] at ok
      | some next =>
        simp only [called] at ok
        split at ok
        · contradiction
        · split at ok
          · contradiction
          · have tail := ih ok
            cases r with
            | error e =>
              cases Option.some.inj called
              simpa [moved,SysResult.moved] using tail
            | count n =>
              simp only [read] at called
              split at called <;> try contradiction
              rename_i enough
              cases Option.some.inj called
              simp only [List.length_drop,List.drop_drop] at tail
              simp only [moved,List.map_cons,List.sum_cons,SysResult.moved]
              exact ⟨by have := tail.1; simp only [moved] at this; omega,tail.2⟩

theorem writeSent {results s len ptr s' v}
    (ok : transfer write results s len ptr = .returned s' v []) :
    s'.sent.length = s.sent.length + moved results := by
  induction results generalizing s len ptr with
  | nil =>
    unfold transfer at ok
    split at ok <;> cases ok
    simp [moved]
  | cons r rest ih =>
    unfold transfer at ok
    split at ok
    · cases ok
    · cases called : write s ptr r with
      | none => simp [called] at ok
      | some next =>
        simp only [called] at ok
        split at ok
        · contradiction
        · split at ok
          · contradiction
          · have tail := ih ok
            cases r with
            | error e =>
              cases Option.some.inj called
              simpa [moved,SysResult.moved] using tail
            | count n =>
              cases Option.some.inj called
              simp only [List.length_append,List.length_map,addresses,List.length_range] at tail
              simp only [moved,List.map_cons,List.sum_cons,SysResult.moved] at tail ⊢
              omega

theorem readQuiet {results s s' v} {len ptr : Int} (n : Nat) (same : len = n)
    (counts : ∀ r ∈ results, ∃ k, r = .count k) (admissible : Admissible results len)
    (ok : transfer read results s len ptr = .returned s' v []) :
    (addresses ptr n).map s'.mem = s.stream.take n ∧
    (∀ a, a ∉ addresses ptr n → s'.mem a = s.mem a) ∧
    s'.touched = s.touched ++ addresses ptr n := by
  induction results generalizing s len ptr n with
  | nil =>
    unfold transfer at ok
    split at ok <;> cases ok
    rename_i zero
    have empty : n = 0 := by omega
    subst empty
    simp [addresses]
  | cons r rest ih =>
    obtain ⟨k,rfl⟩ := counts r List.mem_cons_self
    obtain ⟨_,within,tail⟩ := admissible
    obtain ⟨next,called,later⟩ := transferCount ok
    simp only [read] at called
    split at called <;> try contradiction
    rename_i enough
    cases Option.some.inj called
    obtain ⟨m,rfl⟩ : ∃ m, n = k + m := ⟨n-k,by omega⟩
    have left : len - k = (m : Int) := by omega
    obtain ⟨filled,frame,touch⟩ := ih m left
      (fun r hr => counts r (List.mem_cons_of_mem _ hr)) tail later
    have size : (s.stream.take k).length = k := by simp [enough]
    have first : (addresses ptr k).map s'.mem = s.stream.take k := by
      have kept : ∀ a ∈ addresses ptr k, s'.mem a = poke s.mem ptr (s.stream.take k) a := by
        intro a inside
        apply frame
        rw [addressInside] at inside ⊢
        omega
      rw [List.map_congr_left kept]
      have whole := pokeInside s.mem ptr (s.stream.take k)
      rwa [size] at whole
    refine ⟨?_,?_,?_⟩
    · rw [addressesAppend,List.map_append,first,filled,List.take_add]
    · intro a outside
      rw [addressesAppend,List.mem_append,not_or] at outside
      rw [frame a outside.2]
      exact pokeOutside (by rw [size]; exact outside.1)
    · rw [touch,addressesAppend,List.append_assoc]

theorem writeQuiet {results s s' v} {len ptr : Int} (n : Nat) (same : len = n)
    (counts : ∀ r ∈ results, ∃ k, r = .count k) (admissible : Admissible results len)
    (ok : transfer write results s len ptr = .returned s' v []) :
    s'.mem = s.mem ∧ s'.sent = s.sent ++ (addresses ptr n).map s.mem ∧
    s'.touched = s.touched ++ addresses ptr n := by
  induction results generalizing s len ptr n with
  | nil =>
    unfold transfer at ok
    split at ok <;> cases ok
    rename_i zero
    have empty : n = 0 := by omega
    subst empty
    simp [addresses]
  | cons r rest ih =>
    obtain ⟨k,rfl⟩ := counts r List.mem_cons_self
    obtain ⟨_,within,tail⟩ := admissible
    obtain ⟨next,called,later⟩ := transferCount ok
    cases Option.some.inj called
    obtain ⟨m,rfl⟩ : ∃ m, n = k + m := ⟨n-k,by omega⟩
    have left : len - k = (m : Int) := by omega
    obtain ⟨kept,sent,touch⟩ := ih m left
      (fun r hr => counts r (List.mem_cons_of_mem _ hr)) tail later
    exact ⟨kept,by rw [sent,addressesAppend,List.map_append,List.append_assoc],
      by rw [touch,addressesAppend,List.append_assoc]⟩

theorem readExactQuiet {n : Nat} {results s s' v} (admissible : Admissible results n)
    (ok : cpRead s n results = .returned s' v []) (quiet : NoAgain results) :
    ReadExact n s s' v := by
  have balance := transferBalance admissible ok
  have stream := readConsumed ok
  rw [noAgainCount quiet] at balance
  have total : moved results = n := by omega
  rw [total] at stream
  obtain ⟨bytes,_,touch⟩ := readQuiet n rfl (admissibleCount admissible quiet) admissible ok
  refine ⟨by omega,stream.1,bytes,stream.2,?_⟩
  intro a member
  rw [touch,List.mem_append,addressInside] at member
  simpa using member

theorem readExactNoAgain {n : Nat} {results s s' v} (admissible : Admissible results n)
    (ok : cpRead s n results = .returned s' v []) (exact : ReadExact n s s' v) :
    NoAgain results := by
  have balance := transferBalance admissible ok
  have stream := readConsumed ok
  have lengths := congrArg List.length (stream.2.symm.trans exact.consumed)
  have room := exact.available
  simp only [List.length_drop] at lengths
  apply countNoAgain
  omega

theorem writeExactQuiet {n : Nat} {results s s' v} (admissible : Admissible results n)
    (ok : cpWrite s n results = .returned s' v []) (quiet : NoAgain results) :
    WriteExact n s s' v := by
  have balance := transferBalance admissible ok
  obtain ⟨kept,sent,touch⟩ := writeQuiet n rfl (admissibleCount admissible quiet) admissible ok
  refine ⟨by omega,kept,sent,?_⟩
  intro a member
  rw [touch,List.mem_append,addressInside] at member
  simpa using member

theorem writeExactNoAgain {n : Nat} {results s s' v} (admissible : Admissible results n)
    (ok : cpWrite s n results = .returned s' v []) (exact : WriteExact n s s' v) :
    NoAgain results := by
  have balance := transferBalance admissible ok
  have total := writeSent ok
  have lengths := congrArg List.length exact.bytes
  simp only [List.length_append,List.length_map,addresses,List.length_range] at lengths
  apply countNoAgain
  omega

/- A returning call transfers exactly the requested bytes if and only if none of
its system calls reported EAGAIN, for both directions and every request. -/
theorem exactTransferIffNoAgain (n : Nat) (results : List SysResult)
    (admissible : Admissible results n) :
    (∀ s s' v, cpRead s n results = .returned s' v [] →
      (ReadExact n s s' v ↔ NoAgain results)) ∧
    (∀ s s' v, cpWrite s n results = .returned s' v [] →
      (WriteExact n s s' v ↔ NoAgain results)) :=
  ⟨fun _ _ _ ok => ⟨readExactNoAgain admissible ok,readExactQuiet admissible ok⟩,
    fun _ _ _ ok => ⟨writeExactNoAgain admissible ok,writeExactQuiet admissible ok⟩⟩

/- Three bytes delivered as one and two. -/
theorem exactTransferTwoReads :
    (∃ s', cpRead ⟨fun _ => 0,[1,2,3,4],[]⟩ 3 [.count 1,.count 2] = .returned s' 3 [] ∧
      ReadExact 3 ⟨fun _ => 0,[1,2,3,4],[]⟩ s' 3) ∧
    (∃ s', cpWrite ⟨fun a => if a = 1 then 7 else 0,[],[]⟩ 3 [.count 2,.count 1] = .returned s' 3 [] ∧
      WriteExact 3 ⟨fun a => if a = 1 then 7 else 0,[],[]⟩ s' 3) :=
  ⟨⟨_,rfl,((exactTransferIffNoAgain 3 [.count 1,.count 2] (by decide)).1 _ _ _ rfl).mpr (by decide)⟩,
    ⟨_,rfl,((exactTransferIffNoAgain 3 [.count 2,.count 1] (by decide)).2 _ _ _ rfl).mpr (by decide)⟩⟩

/- One EAGAIN before the first byte: the call asks for two bytes at address -1,
takes both from the stream and still returns 1. -/
theorem againConsumesExtraByte :
    ¬ ∀ (n : Nat) (results : List SysResult), Admissible results n →
      (∀ s s' v, cpRead s n results = .returned s' v [] → ReadExact n s s' v) ∧
      (∀ s s' v, cpWrite s n results = .returned s' v [] → WriteExact n s s' v) := by
  intro always
  have exact := (always 1 [.error .eagain,.count 2] (by decide)).1 ⟨fun _ => 0,[10,20],[]⟩ _ 1 rfl
  have consumed : ([] : Bytes) = [20] := exact.consumed
  contradiction

end Autonomizer.CPIO
