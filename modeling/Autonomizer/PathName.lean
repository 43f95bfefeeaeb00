import Mathlib

/-! Path strings over any alphabet: split at the separator, then drop empty and
dot segments and let two dots leave the directory. -/
namespace Autonomizer.PathName

section
variable {χ : Type} [DecidableEq χ] (sep dot : χ)

def push (cur : List (List χ)) (segment : List χ) : List (List χ) :=
  if segment = [] ∨ segment = [dot] then cur
  else if segment = [dot,dot] then cur.dropLast
  else cur ++ [segment]

def resolve (path : List χ) : List (List χ) := (path.splitOn sep).foldl (push dot) []

/- The directory a path leads to, up to its last segment. -/
def leadsTo (path : List χ) : List (List χ) := (path.splitOn sep).dropLast.foldl (push dot) []

/- Opening a file for writing: all segments but the last lead through directories, and
the last one names no directory. -/
def walk (isDir : List (List χ) → Bool) : List (List χ) → List (List χ) → Option (List (List χ))
  | _,[] => none
  | cur,[last] =>
      if last = [] ∨ last = [dot] ∨ last = [dot,dot] then none
      else if isDir (cur ++ [last]) then none
      else some (cur ++ [last])
  | cur,segment :: next :: rest =>
      if isDir (push dot cur segment) then walk isDir (push dot cur segment) (next :: rest) else none

structure Plain (name : List χ) : Prop where
  nonempty : name ≠ []
  whole : sep ∉ name
  notDot : name ≠ [dot]
  notDots : name ≠ [dot,dot]

instance decidePlain (name : List χ) : Decidable (Plain sep dot name) :=
  decidable_of_iff (name ≠ [] ∧ sep ∉ name ∧ name ≠ [dot] ∧ name ≠ [dot,dot])
    ⟨fun h => ⟨h.1,h.2.1,h.2.2.1,h.2.2.2⟩,fun h => ⟨h.nonempty,h.whole,h.notDot,h.notDots⟩⟩

variable {sep dot}

theorem pushPlain {name : List χ} (plain : Plain sep dot name) (cur : List (List χ)) :
    push dot cur name = cur ++ [name] := by
  simp [push,plain.nonempty,plain.notDot,plain.notDots]

theorem resolveJoin {name : List χ} (plain : Plain sep dot name) (dir : List χ) :
    resolve sep dot (dir ++ sep :: name) = resolve sep dot dir ++ [name] := by
  simp only [resolve,List.splitOn_append_cons_self,List.splitOn_eq_singleton plain.whole,
    List.foldl_append,List.foldl_cons,List.foldl_nil,pushPlain plain]

theorem leadsPlain {name : List χ} (whole : sep ∉ name) (dir : List χ) :
    leadsTo sep dot (dir ++ sep :: name) = resolve sep dot dir := by
  simp only [leadsTo,resolve,List.splitOn_append_cons_self,List.splitOn_eq_singleton whole,
    List.dropLast_concat]

theorem walkLeads {isDir : List (List χ) → Bool} {cur segments found : List (List χ)}
    (walked : walk dot isDir cur segments = some found) :
    (∃ name, found = segments.dropLast.foldl (push dot) cur ++ [name]) ∧
      found = segments.foldl (push dot) cur := by
  induction segments generalizing cur with
  | nil => cases walked
  | cons segment rest ih =>
    cases rest with
    | nil =>
      simp only [walk] at walked
      split at walked <;> try contradiction
      next named =>
      split at walked <;> try contradiction
      cases walked
      refine ⟨⟨segment,rfl⟩,?_⟩
      have other : ¬ (segment = [] ∨ segment = [dot]) := fun h => named (h.imp id .inl)
      have parent : segment ≠ [dot,dot] := fun same => named (.inr (.inr same))
      rw [List.foldl_cons,List.foldl_nil,push,if_neg other,if_neg parent]
    | cons next rest =>
      simp only [walk] at walked
      split at walked <;> try contradiction
      exact ih walked

theorem walkPlain {isDir : List (List χ) → Bool} {name : List χ} (plain : Plain sep dot name)
    (cur : List (List χ)) {segments : List (List χ)}
    (dirs : ∀ first, first <+: segments → first ≠ [] → isDir (first.foldl (push dot) cur) = true)
    (file : isDir (segments.foldl (push dot) cur ++ [name]) = false) :
    walk dot isDir cur (segments ++ [name]) = some (segments.foldl (push dot) cur ++ [name]) := by
  induction segments generalizing cur with
  | nil =>
    have named : ¬ (name = [] ∨ name = [dot] ∨ name = [dot,dot]) := by
      rintro (same | same | same)
      · exact plain.nonempty same
      · exact plain.notDot same
      · exact plain.notDots same
    rw [List.foldl_nil] at file
    rw [List.nil_append,walk,if_neg named,file]
    rfl
  | cons segment rest ih =>
    have here : isDir (push dot cur segment) = true :=
      dirs [segment] ⟨rest,rfl⟩ (List.cons_ne_nil segment [])
    have deeper : ∀ first, first <+: rest → first ≠ [] →
        isDir (first.foldl (push dot) (push dot cur segment)) = true := fun first before _ =>
      dirs (segment :: first) ((List.prefix_cons_inj segment).mpr before) (List.cons_ne_nil segment first)
    have walked := ih (push dot cur segment) deeper file
    obtain ⟨next,more,split_⟩ := List.exists_cons_of_ne_nil (List.append_ne_nil_of_right_ne_nil rest
      (List.cons_ne_nil name []))
    rw [List.cons_append,split_,walk,if_pos here,← split_]
    exact walked

end
end Autonomizer.PathName
