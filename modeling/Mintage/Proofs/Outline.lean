import Mintage.Outline

/-! What stands in an outline, and how it is picked from. -/
namespace Mintage

/-- Every item of an outline whether its condition holds or not. -/
def Part.possible {α : Type} : Part α → List α
  | one item => [item]
  | «when» _ item => [item]
  | optional item => item.toList
  | all items => items

/-- An outline leaves items out and never moves or doubles them. -/
theorem outline_sublist {α : Type} (parts : List (Part α)) :
    (outline parts).Sublist (parts.flatMap Part.possible) := by
  induction parts with
  | nil => exact .slnil
  | cons part parts ih =>
    have first : part.items.Sublist part.possible := by
      cases part with
      | «when» condition item => cases condition <;> simp [Part.items, Part.possible]
      | _ => exact .refl _
    exact first.append ih

namespace Part

variable {α β : Type} (f : α → Option β)

@[simp] theorem filterMap_one (item : α) :
    (Part.one item).items.filterMap f = (f item).toList := by
  cases h : f item <;> simp [items, h]

@[simp] theorem filterMap_when (condition : Bool) (item : α) :
    (Part.when condition item).items.filterMap f = if condition then (f item).toList else [] := by
  cases condition <;> cases h : f item <;> simp [items, h]

@[simp] theorem filterMap_optional (item : Option α) :
    (Part.optional item).items.filterMap f = (item.bind f).toList := by
  cases item with
  | none => rfl
  | some item => cases h : f item <;> simp [items, h]

@[simp] theorem map_one (g : α → β) (item : α) :
    (Part.one item).items.map g = (Part.one (g item)).items := rfl

@[simp] theorem map_when (g : α → β) (condition : Bool) (item : α) :
    (Part.when condition item).items.map g = (Part.when condition (g item)).items := by
  cases condition <;> rfl

@[simp] theorem all_one (q : α → Bool) (item : α) : (Part.one item).items.all q = q item := by
  simp [items]

@[simp] theorem all_when (q : α → Bool) (condition : Bool) (item : α) :
    (Part.when condition item).items.all q = (!condition || q item) := by
  cases condition <;> simp [items]

@[simp] theorem all_optional (q : α → Bool) (item : Option α) :
    (Part.optional item).items.all q = item.all q := by
  cases item <;> simp [items]

@[simp] theorem all_all (q : α → Bool) (members : List α) :
    (Part.all members).items.all q = members.all q := rfl

@[simp] theorem mem_one {x item : α} : x ∈ (Part.one item).items ↔ x = item := by
  simp [items]

@[simp] theorem mem_when {x item : α} {condition : Bool} :
    x ∈ (Part.when condition item).items ↔ condition = true ∧ x = item := by
  cases condition <;> simp [items]

@[simp] theorem mem_optional {x : α} {item : Option α} :
    x ∈ (Part.optional item).items ↔ item = some x := by
  cases item <;> simp [items, eq_comm]

@[simp] theorem mem_all {x : α} {members : List α} :
    x ∈ (Part.all members).items ↔ x ∈ members := Iff.rfl

@[simp] theorem filterMap_all (members : List α) :
    (Part.all members).items.filterMap f = members.filterMap f := rfl

end Part

theorem eq_of_nodup_filterMap {α β : Type} {f : α → Option β} {items : List α}
    (distinct : (items.filterMap f).Nodup) {a b : α} (memA : a ∈ items) (memB : b ∈ items)
    {x : β} (imageA : f a = some x) (imageB : f b = some x) : a = b := by
  induction items with
  | nil => cases memA
  | cons item items ih =>
    cases image : f item with
    | none =>
      rw [List.filterMap_cons_none image] at distinct
      have notItem {c : α} (mem : c ∈ item :: items) (imageC : f c = some x) : c ∈ items := by
        rcases List.mem_cons.1 mem with rfl | mem
        · rw [image] at imageC; cases imageC
        · exact mem
      exact ih distinct (notItem memA imageA) (notItem memB imageB)
    | some y =>
      rw [List.filterMap_cons_some image, List.nodup_cons] at distinct
      have later {c : α} (mem : c ∈ items) (imageC : f c = some x) : x ≠ y := by
        rintro rfl
        exact distinct.1 (List.mem_filterMap.2 ⟨c, mem, imageC⟩)
      rcases List.mem_cons.1 memA with rfl | restA
      · rcases List.mem_cons.1 memB with rfl | restB
        · rfl
        · exact absurd (Option.some.inj (imageA.symm.trans image)) (later restB imageB)
      · rcases List.mem_cons.1 memB with rfl | restB
        · exact absurd (Option.some.inj (imageB.symm.trans image)) (later restA imageA)
        · exact ih distinct.2 restA restB

end Mintage
