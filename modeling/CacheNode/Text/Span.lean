/-!
# CacheNode — the front of a text

Readers take the longest beginning whose elements have a property, such as the digits of a number
or the blanks before it, and leave the rest. They take what is there, and no more, if the text goes
on with something that lacks the property.

* `Stops` — a text ends or goes on with something that lacks the property;
* `takeWhile_append_of_stops`, `dropWhile_append_of_stops` — what is taken, and what is left.
-/

namespace CacheNode.Text

variable {α : Type} {p : α → Bool} {front rest : List α} {a : α}

/-- A text goes on with something that lacks a property, if it goes on at all. -/
def Stops (p : α → Bool) (rest : List α) : Prop := ∀ a more, rest = a :: more → p a = false

theorem stops_nil : Stops p [] := nofun

theorem stops_cons (h : p a = false) (rest : List α) : Stops p (a :: rest) := by
  rintro b more ⟨⟩
  exact h

theorem Stops.take (h : Stops p rest) (count : Nat) : Stops p (rest.take count) := by
  cases count with
  | zero => exact stops_nil
  | succ count =>
    cases rest with
    | nil => exact stops_nil
    | cons a more => exact stops_cons (h a more rfl) _

theorem takeWhile_append_of_stops (h : ∀ a ∈ front, p a = true) (hrest : Stops p rest) :
    (front ++ rest).takeWhile p = front := by
  rw [List.takeWhile_append_of_pos h]
  cases rest with
  | nil => rw [List.takeWhile_nil, List.append_nil]
  | cons a more =>
    rw [List.takeWhile_cons_of_neg (by rw [hrest a more rfl]; exact Bool.false_ne_true),
      List.append_nil]

theorem dropWhile_of_stops (hrest : Stops p rest) : rest.dropWhile p = rest := by
  cases rest with
  | nil => rfl
  | cons a more =>
    exact List.dropWhile_cons_of_neg (by rw [hrest a more rfl]; exact Bool.false_ne_true)

theorem dropWhile_append_of_stops (h : ∀ a ∈ front, p a = true) (hrest : Stops p rest) :
    (front ++ rest).dropWhile p = rest := by
  rw [List.dropWhile_append_of_pos h, dropWhile_of_stops hrest]

end CacheNode.Text
