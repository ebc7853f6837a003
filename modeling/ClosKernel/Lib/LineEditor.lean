import Mathlib.Data.List.Basic
import Mathlib.Data.List.Induction

/-!
# A line editor

Keys are characters, or the key that erases the last one.  `edited` is the line that a list of keys makes, and
`firstLine stop` cuts the keys behind the first one that ends a line.

* `edited_concat` — one more key;
* `firstLine_concat` — one more key, as long as no line has ended;
* `stop_mem_iff` — **a line that has ended can be seen at its end**: if no key came behind the first `stop`, then `stop`
  was pressed just if it is the last character of the line.
-/

namespace LineEditor

variable {α : Type*}

inductive Key (α : Type*) where
  | char (a : α)
  | erase
  deriving DecidableEq

/-- What one key does to the line. -/
def edit (l : List α) : Key α → List α
  | .char a => l ++ [a]
  | .erase => l.dropLast

/-- The line that the keys make. -/
def edited (keys : List (Key α)) : List α := keys.foldl edit []

@[simp] theorem edited_nil : edited ([] : List (Key α)) = [] := rfl

@[simp] theorem edited_concat (keys : List (Key α)) (key : Key α) :
    edited (keys ++ [key]) = edit (edited keys) key := by
  rw [edited, List.foldl_append]
  rfl

/-- A character of the line has been typed. -/
theorem mem_of_mem_edited {keys : List (Key α)} {a : α} (h : a ∈ edited keys) : Key.char a ∈ keys := by
  induction keys using List.reverseRecOn with
  | nil => simp at h
  | append_singleton keys key ih =>
    rw [edited_concat] at h
    cases key with
    | char b =>
      rcases List.mem_append.mp h with h | h
      · exact List.mem_append_left _ (ih h)
      · rw [List.mem_singleton.mp h]
        simp
    | erase => exact List.mem_append_left _ (ih (List.dropLast_subset _ h))

variable [DecidableEq α]

/-- The keys up to and including the first that ends the line. -/
def firstLine (stop : α) : List (Key α) → List (Key α)
  | [] => []
  | key :: keys => if key = .char stop then [key] else key :: firstLine stop keys

/-- As long as no line has ended, any key may come. -/
theorem firstLine_concat {stop : α} {keys : List (Key α)} (h : Key.char stop ∉ keys) (key : Key α) :
    firstLine stop (keys ++ [key]) = keys ++ [key] := by
  induction keys with
  | nil =>
    rw [List.nil_append, firstLine, firstLine, ite_self]
  | cons first keys ih =>
    rw [List.mem_cons, not_or] at h
    rw [List.cons_append, firstLine, if_neg (Ne.symm h.1), ih h.2]

/-- If nothing came behind the first `stop`, then `stop` is missing, or the last key and no other. -/
theorem eq_concat_of_firstLine {stop : α} {keys : List (Key α)} (hfirst : firstLine stop keys = keys)
    (hmem : Key.char stop ∈ keys) : ∃ before, keys = before ++ [.char stop] := by
  induction keys with
  | nil => simp at hmem
  | cons key keys ih =>
    rw [firstLine] at hfirst
    split at hfirst
    · rename_i hkey
      obtain rfl : keys = [] := (List.cons.inj hfirst).2.symm
      exact ⟨[], by rw [hkey]; rfl⟩
    · rename_i hkey
      obtain ⟨before, hbefore⟩ := ih (List.cons.inj hfirst).2 ((List.mem_cons.mp hmem).resolve_left (Ne.symm hkey))
      exact ⟨key :: before, by rw [hbefore]; rfl⟩

/-- **A line that has ended can be seen at its end.** -/
theorem stop_mem_iff {stop : α} {keys : List (Key α)} (hfirst : firstLine stop keys = keys) :
    Key.char stop ∈ keys ↔ (edited keys).getLast? = some stop := by
  constructor
  · intro hmem
    obtain ⟨before, rfl⟩ := eq_concat_of_firstLine hfirst hmem
    rw [edited_concat, edit, List.getLast?_concat]
  · intro hlast
    exact mem_of_mem_edited (List.mem_of_getLast? hlast)

end LineEditor
