/-!
# Separated sequences

A sequence cut at every occurrence of one element. The pieces are what stands
between two occurrences, so there is one piece more than there are occurrences.
-/

set_option autoImplicit false

namespace ProcLang.Separated

variable {α : Type} [DecidableEq α]

/-- The pieces of a sequence between the occurrences of an element. -/
def split (separator : α) : List α → List (List α)
  | [] => [[]]
  | first :: rest =>
      if first = separator then [] :: split separator rest
      else
        match split separator rest with
        | [] => [[first]]
        | piece :: pieces => (first :: piece) :: pieces

end ProcLang.Separated
