/-!
# Totals

The size of a list of things is the sum of their sizes, whatever is counted: the slots that values
take or the bytes that structures are stored in.
-/

namespace JvmClass

/-- The sum of the sizes of things. -/
def total {α : Type} (size : α → Nat) (things : List α) : Nat :=
  things.foldr (fun a sum => size a + sum) 0

variable {α : Type} {size : α → Nat}

@[simp] theorem total_nil : total size [] = 0 := rfl

@[simp] theorem total_cons (a : α) (rest : List α) :
    total size (a :: rest) = size a + total size rest := rfl

@[simp] theorem total_append (front rest : List α) :
    total size (front ++ rest) = total size front + total size rest := by
  induction front with
  | nil => simp
  | cons a front ih => simp [ih, Nat.add_assoc]

theorem total_map {β : Type} (size : β → Nat) (f : α → β) (things : List α) :
    total size (things.map f) = total (fun a => size (f a)) things := List.foldr_map

theorem total_reverse (things : List α) :
    total size things.reverse = total size things := by
  induction things with
  | nil => rfl
  | cons a rest ih =>
    rw [List.reverse_cons, total_append, ih, total_cons, total_cons, total_nil]
    omega

theorem total_flatMap {β : Type} (size : β → Nat) (f : α → List β) (things : List α) :
    total size (things.flatMap f) = total (fun a => total size (f a)) things := by
  induction things with
  | nil => rfl
  | cons a rest ih => rw [List.flatMap_cons, total_append, total_cons, ih]

end JvmClass
