import Mathlib

/-! Keeping the first element under each key of a list, as a table does that is only
added to. -/
namespace Autonomizer.KeepFirst

section
variable {α κ : Type} (key : α → κ)

def First (xs : List α) (x : α) : Prop :=
  ∃ before rest, xs = before ++ x :: rest ∧ ∀ y ∈ before, key y ≠ key x

theorem firstMem {xs : List α} {x : α} (first : First key xs x) : x ∈ xs := by
  obtain ⟨before,rest,rfl,_⟩ := first
  simp

theorem firstAppend (xs ys : List α) (x : α) : First key (xs ++ ys) x ↔
    First key xs x ∨ (First key ys x ∧ ∀ y ∈ xs, key y ≠ key x) := by
  constructor
  · rintro ⟨before,rest,split,new⟩
    rcases List.append_eq_append_iff.mp split with ⟨more,rfl,rest_⟩ | ⟨more,rfl,rest_⟩
    · exact .inr ⟨⟨more,rest,rest_,fun y inside => new y (List.mem_append_right _ inside)⟩,
        fun y inside => new y (List.mem_append_left _ inside)⟩
    · cases more with
      | nil => exact .inr ⟨⟨[],rest,rest_.symm,nofun⟩,fun y inside => new y (by simpa using inside)⟩
      | cons z more =>
        cases rest_
        exact .inl ⟨before,more,rfl,new⟩
  · rintro (⟨before,rest,rfl,new⟩ | ⟨⟨before,rest,rfl,new⟩,apart⟩)
    · exact ⟨before,rest ++ ys,by simp,new⟩
    · refine ⟨xs ++ before,rest,by simp,fun y inside => ?_⟩
      exact (List.mem_append.mp inside).elim (apart y) (new y)

theorem firstOne (x y : α) : First key [y] x ↔ x = y := by
  constructor
  · intro first
    exact List.mem_singleton.mp (firstMem key first)
  · rintro rfl
    exact ⟨[],[],rfl,nofun⟩

theorem firstSnoc (xs : List α) (x y : α) : First key (xs ++ [y]) x ↔
    First key xs x ∨ (x = y ∧ ∀ z ∈ xs, key z ≠ key y) := by
  rw [firstAppend,firstOne]
  exact or_congr Iff.rfl (and_congr_right (fun same => by rw [same]))

theorem firstFlatMap {β : Type} {f : β → List α} {blocks : List β} {x : α}
    (first : First key (blocks.flatMap f) x) : ∃ before b rest, blocks = before ++ b :: rest ∧
      x ∈ f b ∧ ∀ c ∈ before, key x ∉ (f c).map key := by
  induction blocks with
  | nil => cases firstMem key first
  | cons b blocks ih =>
    rw [List.flatMap_cons,firstAppend] at first
    rcases first with here | ⟨later,apart⟩
    · exact ⟨[],b,blocks,rfl,firstMem key here,nofun⟩
    · obtain ⟨before,c,rest,rfl,inside,new⟩ := ih later
      refine ⟨b :: before,c,rest,rfl,inside,fun d member => ?_⟩
      rcases List.mem_cons.mp member with rfl | member
      · intro found
        obtain ⟨y,there,same⟩ := List.mem_map.mp found
        exact apart y there same
      · exact new d member

variable [DecidableEq κ]

def add (kept : List α) (x : α) : List α :=
  if key x ∈ kept.map key then kept else kept ++ [x]

def keepFirst (xs : List α) : List α := xs.foldl (add key) []

theorem keepFirstSnoc (xs : List α) (x : α) :
    keepFirst key (xs ++ [x]) = add key (keepFirst key xs) x := by
  simp [keepFirst]

theorem keepFirstKeys (xs : List α) : ((keepFirst key xs).map key).Nodup ∧
    ∀ k, k ∈ (keepFirst key xs).map key ↔ k ∈ xs.map key := by
  induction xs using List.reverseRecOn with
  | nil => exact ⟨List.nodup_nil,fun _ => Iff.rfl⟩
  | append_singleton xs x ih =>
    obtain ⟨nodup,keys⟩ := ih
    rw [keepFirstSnoc,add]
    split
    · rename_i seen
      refine ⟨nodup,fun k => ?_⟩
      rw [keys k,List.map_append,List.mem_append,List.map_singleton,List.mem_singleton]
      exact ⟨.inl,fun h => h.elim id (fun same => same ▸ (keys _).mp seen)⟩
    · rename_i new
      rw [List.map_append,List.map_append]
      refine ⟨List.nodup_append.mpr ⟨nodup,List.nodup_singleton _,?_⟩,fun k => ?_⟩
      · intro k inside l last same
        rw [List.map_singleton,List.mem_singleton] at last
        exact new (last ▸ same ▸ inside)
      · rw [List.mem_append,List.mem_append,keys k]

theorem memKeepFirst (xs : List α) (x : α) : x ∈ keepFirst key xs ↔ First key xs x := by
  induction xs using List.reverseRecOn with
  | nil => simp [keepFirst,First]
  | append_singleton xs y ih =>
    have keys := (keepFirstKeys key xs).2
    rw [keepFirstSnoc,firstSnoc,add]
    split
    · rename_i seen
      obtain ⟨z,inside,same⟩ := List.mem_map.mp ((keys _).mp seen)
      have old : ¬ ∀ z ∈ xs, key z ≠ key y := fun new => new z inside same
      simp only [ih,old,and_false,or_false]
    · rename_i new
      have fresh : ∀ z ∈ xs, key z ≠ key y := fun z inside same =>
        new ((keys _).mpr (List.mem_map.mpr ⟨z,inside,same⟩))
      rw [List.mem_append,List.mem_singleton,ih]
      exact or_congr Iff.rfl ⟨fun same => ⟨same,fresh⟩,fun last => last.1⟩

end

end Autonomizer.KeepFirst
