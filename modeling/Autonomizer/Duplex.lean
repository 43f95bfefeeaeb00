import Mathlib
import Autonomizer.Diamond

/-! Two deterministic machines joined by two unbounded FIFO streams. A receive
waits until all the symbols it asks for have arrived. The interleaving of the two
sides never matters: the step relation has the one-step diamond property. -/
namespace Autonomizer.Duplex
open Diamond

inductive Act (β σ : Type) where
  | recv (n : Nat) (next : List β → σ)
  | send (symbols : List β) (next : σ)
  | work (next : σ)
  | halt
  | fail

section
variable {β σ τ : Type}

def Act.map (f : σ → τ) : Act β σ → Act β τ
  | .recv n next => .recv n (fun symbols => f (next symbols))
  | .send symbols next => .send symbols (f next)
  | .work next => .work (f next)
  | .halt => .halt
  | .fail => .fail

structure Net (β σ τ : Type) where
  left : σ
  right : τ
  toLeft : List β
  toRight : List β

def advance (next : σ → Act β σ) (s : σ) (inbox outbox : List β) : Option (σ × List β × List β) :=
  match next s with
  | .recv n k =>
      if n ≤ inbox.length then some (k (inbox.take n),inbox.drop n,outbox) else none
  | .send symbols k => some (k,inbox,outbox ++ symbols)
  | .work k => some (k,inbox,outbox)
  | .halt => none
  | .fail => none

theorem advanced {next : σ → Act β σ} {s inbox outbox s' inbox' outbox'}
    (ok : advance next s inbox outbox = some (s',inbox',outbox')) :
    ∃ taken sent, inbox = taken ++ inbox' ∧ outbox' = outbox ++ sent ∧
      ∀ more other, advance next s (taken ++ more) other = some (s',more,other ++ sent) := by
  unfold advance at ok
  split at ok
  · rename_i n k act
    split at ok <;> try contradiction
    rename_i enough
    cases Option.some.inj ok
    have size : (inbox.take n).length = n := by simp [enough]
    refine ⟨inbox.take n,[],(List.take_append_drop n inbox).symm,by simp,?_⟩
    intro more other
    have take : (inbox.take n ++ more).take n = inbox.take n := List.take_left' size
    have drop : (inbox.take n ++ more).drop n = more := List.drop_left' size
    simp only [advance,act,List.length_append,size,take,drop,List.append_nil]
    exact if_pos (Nat.le_add_right _ _)
  · rename_i symbols k act
    cases Option.some.inj ok
    exact ⟨[],symbols,rfl,rfl,fun more other => by simp [advance,act]⟩
  · rename_i k act
    cases Option.some.inj ok
    exact ⟨[],[],rfl,by simp,fun more other => by simp [advance,act]⟩
  · contradiction
  · contradiction

variable (L : σ → Act β σ) (R : τ → Act β τ)

inductive Step : Net β σ τ → Net β σ τ → Prop where
  | left {net s inbox outbox} (move : advance L net.left net.toLeft net.toRight = some (s,inbox,outbox)) :
      Step net ⟨s,net.right,inbox,outbox⟩
  | right {net t inbox outbox} (move : advance R net.right net.toRight net.toLeft = some (t,inbox,outbox)) :
      Step net ⟨net.left,t,outbox,inbox⟩

variable {L R}

/- A left move and a right move commute: each only takes from the front of its
inbox and only adds at the end of the other side's. -/
theorem commute {net : Net β σ τ} {s t inboxL outboxL inboxR outboxR}
    (left : advance L net.left net.toLeft net.toRight = some (s,inboxL,outboxL))
    (right : advance R net.right net.toRight net.toLeft = some (t,inboxR,outboxR)) :
    ∃ w, Step L R ⟨s,net.right,inboxL,outboxL⟩ w ∧ Step L R ⟨net.left,t,outboxR,inboxR⟩ w := by
  obtain ⟨takenL,sentL,splitL,addL,againL⟩ := advanced left
  obtain ⟨takenR,sentR,splitR,addR,againR⟩ := advanced right
  refine ⟨⟨s,t,inboxL ++ sentR,inboxR ++ sentL⟩,?_,?_⟩
  · apply Step.right
    simpa only [addL,splitR,List.append_assoc] using againR (inboxR ++ sentL) inboxL
  · apply Step.left
    simpa only [addR,splitL,List.append_assoc] using againL (inboxL ++ sentR) inboxR

theorem joins : Joins (Step L R) := by
  intro x y z first second
  cases first with
  | left a =>
    cases second with
    | left b => exact .inl (by rw [a] at b; cases b; rfl)
    | right b => exact .inr (commute a b)
  | right a =>
    cases second with
    | left b =>
      obtain ⟨w,left,right⟩ := commute b a
      exact .inr ⟨w,right,left⟩
    | right b => exact .inl (by rw [a] at b; cases b; rfl)

/- What a machine can do alone: emit symbols, or consume a given input. -/
inductive Sends (next : σ → Act β σ) : σ → List β → σ → Prop where
  | refl (s) : Sends next s [] s
  | send {s symbols s' rest s''} (act : next s = .send symbols s') (tail : Sends next s' rest s'') :
      Sends next s (symbols ++ rest) s''
  | work {s s' rest s''} (act : next s = .work s') (tail : Sends next s' rest s'') :
      Sends next s rest s''

inductive Receives (next : σ → Act β σ) : σ → List β → σ → Prop where
  | refl (s) : Receives next s [] s
  | recv {s k symbols rest s''} (act : next s = .recv symbols.length k)
      (tail : Receives next (k symbols) rest s'') : Receives next s (symbols ++ rest) s''
  | work {s s' rest s''} (act : next s = .work s') (tail : Receives next s' rest s'') :
      Receives next s rest s''

theorem sendsTrans {next : σ → Act β σ} {a xs b ys c} (first : Sends next a xs b)
    (second : Sends next b ys c) : Sends next a (xs ++ ys) c := by
  induction first with
  | refl => exact second
  | send act tail ih => rw [List.append_assoc]; exact .send act (ih second)
  | work act tail ih => exact .work act (ih second)

theorem receivesTrans {next : σ → Act β σ} {a xs b ys c} (first : Receives next a xs b)
    (second : Receives next b ys c) : Receives next a (xs ++ ys) c := by
  induction first with
  | refl => exact second
  | recv act tail ih => rw [List.append_assoc]; exact .recv act (ih second)
  | work act tail ih => exact .work act (ih second)

/- A machine that runs another one inside a context until it halts. -/
def Embeds (inner : σ → Act β σ) (outer : τ → Act β τ) (f : σ → τ) : Prop :=
  ∀ s, inner s ≠ .halt → outer (f s) = (inner s).map f

theorem sendsEmbedded {inner : σ → Act β σ} {outer : τ → Act β τ} {f : σ → τ}
    (embeds : Embeds inner outer f) {s symbols s'} (sends : Sends inner s symbols s') :
    Sends outer (f s) symbols (f s') := by
  induction sends with
  | refl s => exact .refl _
  | send act tail ih => exact .send (by rw [embeds _ (by simp [act]),act]; rfl) ih
  | work act tail ih => exact .work (by rw [embeds _ (by simp [act]),act]; rfl) ih

theorem receivesEmbedded {inner : σ → Act β σ} {outer : τ → Act β τ} {f : σ → τ}
    (embeds : Embeds inner outer f) {s symbols s'} (receives : Receives inner s symbols s') :
    Receives outer (f s) symbols (f s') := by
  induction receives with
  | refl s => exact .refl _
  | @recv s k symbols rest s'' act tail ih =>
    exact .recv (k := fun symbols => f (k symbols)) (by rw [embeds _ (by simp [act]),act]; rfl) ih
  | work act tail ih => exact .work (by rw [embeds _ (by simp [act]),act]; rfl) ih

theorem leftSends {s symbols s'} (sends : Sends L s symbols s') (t : τ) (toLeft toRight : List β) :
    ∃ n, Steps (Step L R) n ⟨s,t,toLeft,toRight⟩ ⟨s',t,toLeft,toRight ++ symbols⟩ := by
  induction sends generalizing toRight with
  | refl s => exact ⟨0,by simpa using Steps.refl _⟩
  | @send s symbols s' rest s'' act tail ih =>
    obtain ⟨n,path⟩ := ih (toRight ++ symbols)
    rw [List.append_assoc] at path
    exact ⟨n+1,.head (.left (by simp [advance,act])) path⟩
  | work act tail ih =>
    obtain ⟨n,path⟩ := ih toRight
    exact ⟨n+1,.head (.left (by simp [advance,act])) path⟩

theorem rightSends {t symbols t'} (sends : Sends R t symbols t') (s : σ) (toLeft toRight : List β) :
    ∃ n, Steps (Step L R) n ⟨s,t,toLeft,toRight⟩ ⟨s,t',toLeft ++ symbols,toRight⟩ := by
  induction sends generalizing toLeft with
  | refl t => exact ⟨0,by simpa using Steps.refl _⟩
  | @send t symbols t' rest t'' act tail ih =>
    obtain ⟨n,path⟩ := ih (toLeft ++ symbols)
    rw [List.append_assoc] at path
    exact ⟨n+1,.head (.right (by simp [advance,act])) path⟩
  | work act tail ih =>
    obtain ⟨n,path⟩ := ih toLeft
    exact ⟨n+1,.head (.right (by simp [advance,act])) path⟩

theorem leftReceives {s symbols s'} (receives : Receives L s symbols s') (t : τ)
    (toLeft toRight : List β) :
    ∃ n, Steps (Step L R) n ⟨s,t,symbols ++ toLeft,toRight⟩ ⟨s',t,toLeft,toRight⟩ := by
  induction receives with
  | refl s => exact ⟨0,.refl _⟩
  | @recv s k symbols rest s'' act tail ih =>
    obtain ⟨n,path⟩ := ih
    exact ⟨n+1,.head (.left (by simp [advance,act])) path⟩
  | work act tail ih =>
    obtain ⟨n,path⟩ := ih
    exact ⟨n+1,.head (.left (by simp [advance,act])) path⟩

theorem rightReceives {t symbols t'} (receives : Receives R t symbols t') (s : σ)
    (toLeft toRight : List β) :
    ∃ n, Steps (Step L R) n ⟨s,t,toLeft,symbols ++ toRight⟩ ⟨s,t',toLeft,toRight⟩ := by
  induction receives with
  | refl t => exact ⟨0,.refl _⟩
  | @recv t k symbols rest t'' act tail ih =>
    obtain ⟨n,path⟩ := ih
    exact ⟨n+1,.head (.right (by simp [advance,act])) path⟩
  | work act tail ih =>
    obtain ⟨n,path⟩ := ih
    exact ⟨n+1,.head (.right (by simp [advance,act])) path⟩

theorem bothHalted {net : Net β σ τ} (left : L net.left = .halt) (right : R net.right = .halt) :
    Final (Step L R) net := by
  intro y move
  cases move with
  | left move => simp [advance,left] at move
  | right move => simp [advance,right] at move

def Failed (L : σ → Act β σ) (R : τ → Act β τ) (net : Net β σ τ) : Prop :=
  L net.left = .fail ∨ R net.right = .fail

theorem failedStays {net net' : Net β σ τ} (failed : Failed L R net) (step : Step L R net net') :
    Failed L R net' := by
  cases step with
  | left move =>
    rcases failed with here | there
    · simp [advance,here] at move
    · exact .inr there
  | right move =>
    rcases failed with here | there
    · exact .inl here
    · simp [advance,there] at move

theorem settledNoFailure {net final : Net β σ τ} (settled : Settles (Step L R) net final)
    (left : L final.left = .halt) (right : R final.right = .halt) {n reached}
    (path : Steps (Step L R) n net reached) : ¬ Failed L R reached := by
  obtain ⟨_,total,_,all⟩ := settled
  have rest := (all n reached path).2
  intro failed
  have stays : ∀ {m a b}, Steps (Step L R) m a b → Failed L R a → Failed L R b := by
    intro m a b path
    induction path with
    | refl => exact id
    | head first _ ih => exact fun failed => ih (failedStays failed first)
  rcases stays rest failed with here | there
  · rw [left] at here; contradiction
  · rw [right] at there; contradiction

end
end Autonomizer.Duplex
