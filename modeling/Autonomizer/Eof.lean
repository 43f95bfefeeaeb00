import Mathlib
import Autonomizer.Duplex

/-! A machine that reads a finite stream with read() until the stream ends; from then
on read() returns 0, and a loop that waits for its bytes asks again. The rule
endsIff reduces the absence of an endless execution to a predicate on the bytes. -/
namespace Autonomizer.Eof
open Duplex

inductive Reading (β σ : Type) where
  | running (at_ : σ) (got stream : List β)
  | asserted

section
variable {β σ : Type} (next : σ → Act β σ)

/- One read() call, or one other step of the machine; got is what the current receive
has read so far. A write that the peer no longer takes ends in an assertion. -/
inductive Step : Reading β σ → Reading β σ → Prop where
  | work {s k stream} (act : next s = .work k) : Step (.running s [] stream) (.running k [] stream)
  | send {s symbols k stream} (act : next s = .send symbols k) :
      Step (.running s [] stream) (.running k [] stream)
  | refused {s symbols k stream} (act : next s = .send symbols k) :
      Step (.running s [] stream) .asserted
  | read {s n k got stream} (count : Nat) (act : next s = .recv n k) (some_ : 0 < count)
      (asked : count ≤ n - got.length) (there : count ≤ stream.length) :
      Step (.running s got stream) (.running s (got ++ stream.take count) (stream.drop count))
  | eof {s n k got} (act : next s = .recv n k) (short : got.length < n) :
      Step (.running s got []) (.running s got [])
  | received {s n k got stream} (act : next s = .recv n k) (all : got.length = n) :
      Step (.running s got stream) (.running (k got) [] stream)

theorem readWhole {next : σ → Act β σ} {s : σ} {n : Nat} {k : List β → σ} {bytes rest : List β}
    (act : next s = .recv n k) (size : bytes.length = n) : Relation.ReflTransGen (Step next)
      (.running s [] (bytes ++ rest)) (.running (k bytes) [] rest) := by
  cases bytes with
  | nil => exact .single (.received act size)
  | cons b more =>
    have all : Step next (.running s [] (b :: more ++ rest)) (.running s (b :: more) rest) := by
      have read := @Step.read β σ next s n k [] (b :: more ++ rest) n act (by rw [← size]; exact Nat.succ_pos _)
        (Nat.le_refl n) (by rw [← size,List.length_append]; exact Nat.le_add_right _ _)
      rwa [← size,List.take_left,List.drop_left,List.nil_append] at read
    exact (Relation.ReflTransGen.single all).tail (.received act size)

/- No execution goes on for ever. -/
def Ends (s : Reading β σ) : Prop :=
  ¬ ∃ run : Nat → Reading β σ, run 0 = s ∧ ∀ i, Step next (run i) (run (i + 1))

/- Wants s bytes says that s comes to an end on these bytes, one act at a time, and
lower that the acts that read nothing do not go on for ever. -/
structure Decided (Valid : σ → Prop) (Wants : σ → List β → Prop) (lower : σ → σ → Prop) : Prop where
  founded : WellFounded lower
  quiet : ∀ s k, Valid s → (next s = .work k ∨ ∃ symbols, next s = .send symbols k) →
    Valid k ∧ lower k s ∧ ∀ bytes, Wants s bytes ↔ Wants k bytes
  recv : ∀ s n k, Valid s → next s = .recv n k → (∀ got, got.length = n → Valid (k got)) ∧
    (n = 0 → lower (k []) s) ∧
    ∀ bytes, Wants s bytes ↔ n ≤ bytes.length ∧ Wants (k (bytes.take n)) (bytes.drop n)
  ended : ∀ s, Valid s → (next s = .halt ∨ next s = .fail) → ∀ bytes, Wants s bytes

variable {next} {Valid : σ → Prop} {Wants : σ → List β → Prop} {lower : σ → σ → Prop}

def Sound (next : σ → Act β σ) (Valid : σ → Prop) : Reading β σ → Prop
  | .running s got _ => Valid s ∧ match next s with
      | .recv n _ => got.length ≤ n
      | _ => got = []
  | .asserted => True

def Wanted (Wants : σ → List β → Prop) : Reading β σ → Prop
  | .running s got stream => Wants s (got ++ stream)
  | .asserted => True

theorem soundStart {s : σ} (valid : Valid s) (stream : List β) :
    Sound next Valid (.running s [] stream) := by
  refine ⟨valid,?_⟩
  split
  · exact Nat.zero_le _
  · rfl

theorem stepSound (decided : Decided next Valid Wants lower) {s t : Reading β σ}
    (sound : Sound next Valid s) (step : Step next s t) : Sound next Valid t := by
  cases step with
  | work act => exact soundStart (decided.quiet _ _ sound.1 (.inl act)).1 _
  | send act => exact soundStart (decided.quiet _ _ sound.1 (.inr ⟨_,act⟩)).1 _
  | refused act => trivial
  | read count act some_ asked there =>
    refine ⟨sound.1,?_⟩
    have bound := sound.2
    simp only [act] at bound ⊢
    rw [List.length_append,List.length_take]
    omega
  | eof act short => exact sound
  | received act all => exact soundStart ((decided.recv _ _ _ sound.1 act).1 _ all) _

theorem stepWanted (decided : Decided next Valid Wants lower) {s t : Reading β σ}
    (sound : Sound next Valid s) (step : Step next s t) (kept : t ≠ .asserted) :
    Wanted Wants s ↔ Wanted Wants t := by
  cases step with
  | work act => exact (decided.quiet _ _ sound.1 (.inl act)).2.2 _
  | send act => exact (decided.quiet _ _ sound.1 (.inr ⟨_,act⟩)).2.2 _
  | refused act => exact absurd rfl kept
  | read count act some_ asked there =>
    simp only [Wanted,List.append_assoc,List.take_append_drop]
  | eof act short => exact Iff.rfl
  | received act all =>
    have whole := (decided.recv _ _ _ sound.1 act).2.2
    simp only [Wanted,whole,List.length_append,List.nil_append]
    rw [← all,List.take_left,List.drop_left]
    exact ⟨fun h => h.2,fun h => ⟨Nat.le_add_right _ _,h⟩⟩

def Closer (lower : σ → σ → Prop) : Reading β σ → Reading β σ → Prop
  | .running t got stream,.running s got' stream' =>
      Prod.Lex (· < ·) (Prod.Lex (· < ·) lower) (got.length + stream.length,stream.length,t)
        (got'.length + stream'.length,stream'.length,s)
  | .asserted,.running _ _ _ => True
  | _,.asserted => False

theorem closerFounded (founded : WellFounded lower) : WellFounded (Closer lower : Reading β σ → Reading β σ → Prop) := by
  have stopped : Acc (Closer lower) (.asserted : Reading β σ) := ⟨_,fun t closer => by
    cases t <;> exact absurd closer id⟩
  have lex := WellFounded.prod_lex Nat.lt_wfRel.wf (WellFounded.prod_lex Nat.lt_wfRel.wf founded)
  have all : ∀ (m : Nat × Nat × σ) s got stream,
      m = (got.length + stream.length,stream.length,s) →
      Acc (Closer lower) (.running s got stream : Reading β σ) := by
    intro m
    induction m using lex.induction with
    | _ m ih =>
      rintro s got stream rfl
      refine ⟨_,fun t closer => ?_⟩
      cases t with
      | asserted => exact stopped
      | running t got' stream' => exact ih _ closer t got' stream' rfl
  refine ⟨fun s => ?_⟩
  cases s with
  | asserted => exact stopped
  | running s got stream => exact all _ s got stream rfl

theorem stepCloser (decided : Decided next Valid Wants lower) {s t : Reading β σ}
    (sound : Sound next Valid s) (wanted : Wanted Wants s) (step : Step next s t) :
    Closer lower t s := by
  cases step with
  | work act => exact .right _ (.right _ (decided.quiet _ _ sound.1 (.inl act)).2.1)
  | send act => exact .right _ (.right _ (decided.quiet _ _ sound.1 (.inr ⟨_,act⟩)).2.1)
  | refused act => trivial
  | read count act some_ asked there =>
    rename_i s n k got stream
    have same : (got ++ stream.take count).length + (stream.drop count).length =
        got.length + stream.length := by
      rw [List.length_append,List.length_take,List.length_drop]
      omega
    have less : (stream.drop count).length < stream.length := by
      rw [List.length_drop]
      omega
    simp only [Closer,same]
    exact .right _ (.left _ _ less)
  | eof act short =>
    have enough := ((decided.recv _ _ _ sound.1 act).2.2 _).mp wanted
    rw [List.append_nil] at enough
    omega
  | received act all =>
    rename_i s n k got stream
    by_cases none : n = 0
    · have empty : got = [] := List.length_eq_zero_iff.mp (all.trans none)
      subst empty
      exact .right _ (.right _ ((decided.recv _ _ _ sound.1 act).2.1 none))
    · refine .left _ _ ?_
      simp only [List.length_nil]
      omega

theorem stepMissing (decided : Decided next Valid Wants lower) {s : Reading β σ}
    (sound : Sound next Valid s) (missing : ¬ Wanted Wants s) :
    ∃ t, Step next s t ∧ Sound next Valid t ∧ ¬ Wanted Wants t := by
  have on {t : Reading β σ} (step : Step next s t) (kept : t ≠ .asserted) :
      ∃ t, Step next s t ∧ Sound next Valid t ∧ ¬ Wanted Wants t :=
    ⟨t,step,stepSound decided sound step,fun h => missing ((stepWanted decided sound step kept).mpr h)⟩
  cases s with
  | asserted => exact absurd trivial missing
  | running s got stream =>
    obtain ⟨valid,bound⟩ := sound
    cases act : next s with
    | recv n k =>
      simp only [act] at bound
      rcases Nat.lt_or_eq_of_le bound with short | all
      · cases stream with
        | nil => exact on (.eof act short) nofun
        | cons b rest => exact on (.read 1 act (by omega) (by omega) (by simp)) nofun
      · exact on (.received act all) nofun
    | send symbols k =>
      simp only [act] at bound
      subst bound
      exact on (.send act) nofun
    | work k =>
      simp only [act] at bound
      subst bound
      exact on (.work act) nofun
    | halt => exact absurd (decided.ended s valid (.inl act) _) missing
    | fail => exact absurd (decided.ended s valid (.inr act) _) missing

/- The machine stops on every division of the bytes into read() calls if and only if
they are what it wants. -/
theorem endsIff (decided : Decided next Valid Wants lower) {s : σ} (valid : Valid s)
    (bytes : List β) : Ends next (.running s [] bytes) ↔ Wants s bytes := by
  have start : Sound next Valid (.running s [] bytes) := soundStart valid bytes
  constructor
  · intro ends
    by_contra missing
    have missing : ¬ Wanted Wants (.running s [] bytes) := missing
    let Stuck := { r : Reading β σ // Sound next Valid r ∧ ¬ Wanted Wants r }
    have more : ∀ r : Stuck, ∃ t : Stuck, Step next r.1 t.1 := fun r => by
      obtain ⟨t,step,sound,missing⟩ := stepMissing decided r.2.1 r.2.2
      exact ⟨⟨t,sound,missing⟩,step⟩
    choose after steps using more
    let run : Nat → Stuck := fun i => after^[i] ⟨.running s [] bytes,start,missing⟩
    refine ends ⟨fun i => (run i).1,rfl,fun i => ?_⟩
    have next_ : run (i + 1) = after (run i) := Function.iterate_succ_apply' after i _
    change Step next (run i).1 (run (i + 1)).1
    rw [next_]
    exact steps (run i)
  · rintro wants ⟨run,first,steps⟩
    have kept : ∀ i, Sound next Valid (run i) ∧ Wanted Wants (run i) := by
      intro i
      induction i with
      | zero => rw [first]; exact ⟨start,wants⟩
      | succ i ih =>
        have step := steps i
        have alive : run (i + 1) ≠ .asserted := by
          intro stopped
          have later := steps (i + 1)
          rw [stopped] at later
          cases later
        exact ⟨stepSound decided ih.1 step,(stepWanted decided ih.1 step alive).mp ih.2⟩
    have down : ∀ i, Closer lower (run (i + 1)) (run i) :=
      fun i => stepCloser decided (kept i).1 (kept i).2 (steps i)
    have founded : IsWellFounded (Reading β σ) (Closer lower) := ⟨closerFounded decided.founded⟩
    obtain ⟨i,still⟩ := WellFounded.not_rel_apply_succ (r := Closer lower) run
    exact still (down i)

end

end Autonomizer.Eof
