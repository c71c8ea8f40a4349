import Mintage.Proofs.Solidity.Lexing

/-! Which contracts a sequence of words and signs declares, and within how many brackets. -/
namespace Mintage.Solidity

open Text

/-- The names behind the word `contract`, each with the number of brackets that are open there. -/
def contracts (depth : Nat) : List Lexeme → List (Nat × String)
  | [] => []
  | .sign c :: ls =>
    contracts (if opens c then depth + 1 else if closes c then depth - 1 else depth) ls
  | .word s :: .word name :: ls =>
    if s = "contract" then (depth, name) :: contracts depth ls
    else contracts depth (.word name :: ls)
  | .word _ :: ls => contracts depth ls

theorem contracts_word (depth : Nat) {s : String} {ls : List Lexeme}
    (sign : s = "contract" → ls = [] ∨ ls.head?.any isSign = true) :
    contracts depth (.word s :: ls) = contracts depth ls := by
  match ls with
  | [] => rfl
  | .sign c :: ls => rfl
  | .word name :: ls =>
    have other : s ≠ "contract" := fun same => by
      rcases sign same with empty | sign
      · cases empty
      · cases sign
    rw [contracts, if_neg other]

/-- As many brackets are open as are to close. -/
theorem length_of_unclosed {due due' : List Char} {c : Char} {ls : List Lexeme}
    (read : unclosed due (.sign c :: ls) = some due') :
    ∃ next, unclosed next ls = some due' ∧
      next.length = if opens c then due.length + 1 else if closes c then due.length - 1
        else due.length := by
  simp only [unclosed] at read
  split at read
  · rename_i closing found
    have opening : opens c = true :=
      List.contains_iff_mem.2 (List.mem_map_of_mem (f := Prod.fst) (mem_brackets_of_lookup found))
    exact ⟨_, read, by simp [opening]⟩
  rename_i missing
  rw [opens_eq_false_of_lookup missing]
  split at read
  · rename_i closing
    split at read
    · cases read
    split at read
    · exact ⟨_, read, by simp [closing]⟩
    · cases read
  · rename_i other
    exact ⟨_, read, by simp [other]⟩

/-- Where no contract is declared the brackets are counted and nothing else. -/
theorem contracts_append {due due' : List Char} {ls : List Lexeme} (ms : List Lexeme)
    (closes : unclosed due ls = some due')
    (quiet : ls.IsChain fun first second => apart first second = true)
    (seam : ls.getLast? = some (.word "contract") → ms = [] ∨ ms.head?.any isSign = true) :
    contracts due.length (ls ++ ms) = contracts due'.length ms := by
  induction ls generalizing due with
  | nil =>
    cases closes
    rfl
  | cons l ls ih =>
    have later {due : List Char} (closes : unclosed due ls = some due') :
        contracts due.length (ls ++ ms) = contracts due'.length ms := by
      refine ih closes quiet.tail fun last => seam ?_
      rw [List.getLast?_cons, last]
      rfl
    cases l with
    | sign c =>
      obtain ⟨next, closes, length⟩ := length_of_unclosed closes
      rw [List.cons_append, contracts, ← length]
      exact later closes
    | word s =>
      rw [List.cons_append, contracts_word, later closes]
      intro same
      subst same
      cases ls with
      | nil => exact seam rfl
      | cons next ls =>
        have sign := (List.isChain_cons_cons.1 quiet).1
        exact .inr (by simpa [apart] using sign)

/-- The words and signs close their own brackets, and outside of brackets they declare contracts of
these names and no others. -/
structure Declares (names : List String) (ls : List Lexeme) : Prop where
  closes : unclosed [] ls = some []
  lists : ∀ ms, contracts 0 (ls ++ ms) = names.map ((0, ·)) ++ contracts 0 ms

namespace Declares

variable {names more : List String} {ls ms : List Lexeme}

theorem nil : Declares [] [] := ⟨rfl, fun _ => rfl⟩

theorem append (first : Declares names ls) (second : Declares more ms) :
    Declares (names ++ more) (ls ++ ms) := by
  refine ⟨?_, fun rest => ?_⟩
  · rw [unclosed_append, first.closes]
    exact second.closes
  · rw [List.append_assoc, first.lists, second.lists, List.map_append, List.append_assoc]

/-- What fits between two points declares nothing, if no word is left pending at its end. -/
theorem of_fits {e f : Edge} (fits : Fits ⟨e, []⟩ ⟨f, []⟩ ls) (other : f ≠ .code) :
    Declares [] ls :=
  ⟨fits.closes, fun ms => contracts_append ms fits.closes fits.quiet fun last =>
    absurd last (fits.ends other)⟩

theorem flatMap {α : Type} {docs : List α} {f : α → List Lexeme} {g : α → List String}
    (all : ∀ doc ∈ docs, Declares (g doc) (f doc)) :
    Declares (docs.flatMap g) (docs.flatMap f) := by
  induction docs with
  | nil => exact .nil
  | cons doc docs ih =>
    rw [List.flatMap_cons, List.flatMap_cons]
    exact (all doc List.mem_cons_self).append
      (ih fun other mem => all other (List.mem_cons_of_mem _ mem))

end Declares

/-- At its end the text declares the contract of this name, outside of brackets and with its body in
braces. -/
def EndsWith (name : String) (ls : List Lexeme) : Prop :=
  ∃ before header body, ls = before ++ .word "contract" :: .word name ::
      (header ++ .sign '\x7b' :: (body ++ [.sign '\x7d'])) ∧
    Nested before ∧ .sign '\x7b' ∉ header ∧ Nested body

end Mintage.Solidity
