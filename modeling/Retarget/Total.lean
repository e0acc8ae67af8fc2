/-!
Sums over lists.
-/

set_option autoImplicit false

namespace Retarget

variable {α : Type}

def total (f : α → Nat) (items : List α) : Nat :=
  items.foldr (fun a n => f a + n) 0

@[simp]
theorem total_nil (f : α → Nat) : total f [] = 0 := rfl

@[simp]
theorem total_cons (f : α → Nat) (a : α) (items : List α) :
    total f (a :: items) = f a + total f items := rfl

theorem total_const (n : Nat) (items : List α) : total (fun _ => n) items = items.length * n := by
  induction items with
  | nil => simp
  | cons a items ih => simp [ih, Nat.add_mul, Nat.add_comm]

theorem total_append (f : α → Nat) (front back : List α) :
    total f (front ++ back) = total f front + total f back := by
  induction front with
  | nil => simp
  | cons a front ih => simp [ih, Nat.add_assoc]

end Retarget
