/-! Ordered lists of parts, some of which stand under a condition. -/
namespace Mintage

inductive Part (α : Type) where
  | one (item : α)
  | when (condition : Bool) (item : α)
  | optional (item : Option α)
  | all (items : List α)

namespace Part

def items {α : Type} : Part α → List α
  | one item => [item]
  | when condition item => if condition then [item] else []
  | optional item => item.toList
  | all items => items

end Part

/-- The items of all parts, in the order in which the parts are listed. -/
def outline {α : Type} (parts : List (Part α)) : List α := parts.flatMap Part.items

@[simp] theorem outline_nil {α : Type} : outline ([] : List (Part α)) = [] := rfl

@[simp] theorem outline_cons {α : Type} (part : Part α) (parts : List (Part α)) :
    outline (part :: parts) = part.items ++ outline parts := rfl

@[simp] theorem outline_append {α : Type} (parts more : List (Part α)) :
    outline (parts ++ more) = outline parts ++ outline more := by
  simp [outline]

end Mintage
