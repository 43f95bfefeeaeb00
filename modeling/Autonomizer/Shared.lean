import Mathlib
import Autonomizer.FileSystem
import Autonomizer.Process

/-! Processes on one file system: where its entries come from, and what is in a file
that only one of them writes. -/
namespace Autonomizer.Shared
open FileSystem Format Process Trace

section
variable {ι ε : Type}

abbrev Files (ι ε : Type) := System ι FS Op Reply ε

/- What is known in every state: who made each entry, what has been created is there,
everybody kept to a footprint, and a file with one writer is what its log says. -/
structure Tracked (first : FS) (foot : ι → Footprint) (s : Files ι ε) : Prop where
  grows : Grows first s.shared
  origin : ∀ path, (s.shared path).isSome → (first path).isSome ∨
    ∃ i, ∃ e ∈ s.past i, e.1.target = some path
  file : ∀ path, (fileText (s.shared path)).isSome → (fileText (first path)).isSome ∨
    ∃ i, ∃ e ∈ s.past i, e.1.file = some path
  made : ∀ i path, (.create path,.ok) ∈ s.past i → (fileText (s.shared path)).isSome
  within : ∀ i, ∀ e ∈ s.past i, (foot i).allows e.1
  owned : ∀ i path, (∀ j, j ≠ i → ¬ (foot j).writes path) →
    fileText (s.shared path) = replay path (fileText (first path)) (s.past i)

theorem startTracked (first : FS) (foot : ι → Footprint) (progs : ι → Prog Op Reply ε Unit) :
    Tracked first foot (start first progs) where
  grows := growsRefl first
  origin _ here := .inl here
  file _ here := .inl here
  made _ _ inside := absurd inside (List.not_mem_nil)
  within _ _ inside := absurd inside (List.not_mem_nil)
  owned _ _ _ := rfl

theorem fileGrows {before after : FS} (grows : Grows before after) {path : Path}
    (present : (fileText (before path)).isSome) : (fileText (after path)).isSome := by
  cases found : before path with
  | none => rw [found] at present; cases present
  | some node => cases node with
    | dir => rw [found] at present; cases present
    | file text =>
      obtain ⟨text',there⟩ := grows.file path text found
      rw [there]; rfl

variable [DecidableEq ι]

theorem pastAfter {s t : Files ι ε} {i : ι} {e : Op × Reply}
    (past : t.past = Function.update s.past i (s.past i ++ [e])) (j : ι) :
    t.past j = if j = i then s.past i ++ [e] else s.past j := by
  rw [past]
  by_cases same : j = i
  · subst same; simp
  · simp [same]

theorem pastGrows {s t : Files ι ε} {i : ι} {e : Op × Reply}
    (past : t.past = Function.update s.past i (s.past i ++ [e])) {j : ι} {x : Op × Reply}
    (inside : x ∈ s.past j) : x ∈ t.past j := by
  rw [pastAfter past]
  split
  · rename_i same
    subst same
    exact List.mem_append_left _ inside
  · exact inside

theorem pastLast {s t : Files ι ε} {i : ι} {e : Op × Reply}
    (past : t.past = Function.update s.past i (s.past i ++ [e])) : e ∈ t.past i := by
  rw [pastAfter past,if_pos rfl]
  exact List.mem_append_right _ (List.mem_singleton_self e)

theorem stepTracked {first : FS} {foot : ι → Footprint} {s t : Files ι ε} {i : ι} {op : Op}
    (tracked : Tracked first foot s) (allowed : (foot i).allows op)
    (shared : t.shared = (handle op s.shared).2)
    (past : t.past = Function.update s.past i (s.past i ++ [(op,(handle op s.shared).1)])) :
    Tracked first foot t := by
  have step : Grows s.shared t.shared := shared ▸ handleGrows op s.shared
  have last := pastLast past
  refine ⟨growsTrans tracked.grows step,?_,?_,?_,?_,?_⟩
  · intro path here
    by_cases mine : op.target = some path
    · exact .inr ⟨i,_,last,mine⟩
    · rw [shared,handleFrame mine] at here
      rcases tracked.origin path here with old | ⟨j,e,inside,target⟩
      · exact .inl old
      · exact .inr ⟨j,e,pastGrows past inside,target⟩
  · intro path here
    by_cases mine : op.file = some path
    · exact .inr ⟨i,_,last,mine⟩
    · rw [shared,handleFile mine] at here
      rcases tracked.file path here with old | ⟨j,e,inside,file⟩
      · exact .inl old
      · exact .inr ⟨j,e,pastGrows past inside,file⟩
  · intro j path inside
    rw [pastAfter past] at inside
    split at inside
    · rcases List.mem_append.mp inside with old | new
      · exact fileGrows step (tracked.made i path old)
      · obtain ⟨rfl,ok⟩ := Prod.mk.inj (List.mem_singleton.mp new)
        obtain ⟨text,there⟩ := createdPresent ok.symm
        rw [shared,there]; rfl
    · exact fileGrows step (tracked.made j path inside)
  · intro j e inside
    rw [pastAfter past] at inside
    split at inside
    · rename_i same
      rcases List.mem_append.mp inside with old | new
      · exact same ▸ tracked.within i e old
      · rw [List.mem_singleton.mp new,same]; exact allowed
    · exact tracked.within j e inside
  · intro j path alone
    rw [pastAfter past,shared]
    by_cases same : j = i
    · rw [if_pos same,replaySnoc,handleEffect,← tracked.owned i path (same ▸ alone)]
    · have apart : op.file ≠ some path := fun file =>
        alone i (Ne.symm same) (writesFile allowed file)
      rw [if_neg same,handleFile apart,tracked.owned j path alone]

/- Processes whose contracts stay within footprints, and rely only on replies that
follow from what is known. -/
theorem runTracked {first : FS} {foot : ι → Footprint} {progs : ι → Prog Op Reply ε Unit}
    {allowed : Files ι ε → ι → Prop} {c : ι → Contract Op Reply} {Q : ι → Log Op Reply → Prop}
    {E : ι → Log Op Reply → ε → Prop}
    (calls : ∀ i log op, (c i).calls log op → (foot i).allows op)
    (replies : ∀ s i op, allowed s i → Tracked first foot s → (c i).calls (s.past i) op →
      (c i).replies (s.past i) op (handle op s.shared).1)
    (meets : ∀ i, Meets (c i) [] (progs i) (fun l _ => Q i l) (E i))
    {schedule : List ι} {t : Files ι ε}
    (run : Run (System.step handle) allowed (start first progs) schedule t) :
    Tracked first foot t ∧ AllMeet c Q E t := by
  refine runMeets (Tracked first foot) ?_ run (startTracked first foot progs) meets
  intro s i op t ok tracked _ _ called shared past
  exact ⟨replies s i op ok tracked called,stepTracked tracked (calls i _ op called) shared past⟩

/- A file that one process writes is what its log put there, and empty between its
opening with "w" and the write that follows. -/
structure HoldsPuts (path : Path) (owner : ι) (s : Files ι ε) : Prop where
  text : contents s.shared path = (puts path (s.past owner)).flatten
  opened : (s.past owner).getLast? = some (.create path,.ok) → fileText (s.shared path) = some []

/- Anybody may open the file with "w" while it is empty; the owner appends, and writes
at the beginning right after opening. -/
theorem stepHoldsPuts {path : Path} {owner i : ι} {s t : Files ι ε} {op : Op}
    (holds : HoldsPuts path owner s)
    (empty : op = .create path → contents s.shared path = [])
    (writer : ∀ text, op = .append path text ∨ op = .write path text → i = owner)
    (begins : ∀ text, op = .write path text → (s.past i).getLast? = some (.create path,.ok))
    (shared : t.shared = (handle op s.shared).2)
    (past : t.past = Function.update s.past i (s.past i ++ [(op,(handle op s.shared).1)])) :
    HoldsPuts path owner t := by
  have after := handleEffect op s.shared path
  rw [← shared] at after
  generalize (handle op s.shared).1 = r at past after
  have mine := pastAfter past owner
  have text := holds.text
  unfold contents at text empty
  by_cases own : op.file = some path
  · cases op with
    | create p =>
      cases Option.some.inj own
      have before := empty rfl
      have same : puts path (t.past owner) = puts path (s.past owner) := by
        rw [mine]
        split
        · rename_i owned
          subst owned
          simp [puts,putText]
        · rfl
      constructor
      · rw [contents,after,same,← text,before]
        cases r <;> simp [effect,before]
      · intro last
        rw [after]
        cases r with
        | ok => simp [effect]
        | _ =>
          rw [mine] at last
          split at last
          · simp at last
          · exact holds.opened last
    | write p new =>
      cases Option.some.inj own
      cases writer new (.inr rfl)
      have found := holds.opened (begins new rfl)
      rw [if_pos rfl] at mine
      rw [found] at text
      constructor
      · rw [contents,after,found,mine,putsAppend,List.flatten_append,← text]
        simp [effect,puts,putText]
      · rw [mine]
        simp
    | append p new =>
      cases Option.some.inj own
      cases writer new (.inl rfl)
      rw [if_pos rfl] at mine
      constructor
      · rw [contents,after,mine,putsAppend,List.flatten_append,← text]
        cases r <;> simp [effect,puts,putText]
      · rw [mine]
        simp
    | _ => cases own
  · rw [effectOther own] at after
    have same : puts path (t.past owner) = puts path (s.past owner) := by
      rw [mine]
      split
      · rename_i owned
        subst owned
        rw [putsAppend]
        simp [puts,putOther own]
      · rfl
    refine ⟨by rw [contents,after,same,← text],fun last => ?_⟩
    rw [after]
    rw [mine] at last
    split at last
    · rw [List.getLast?_concat] at last
      cases (Prod.mk.inj (Option.some.inj last)).1
      exact absurd rfl own
    · exact holds.opened last

end

end Autonomizer.Shared
