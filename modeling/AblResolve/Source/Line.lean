/-!
The lines of a text. Lines and columns of tokens count newlines alone. What ends a line belongs to
it, so that nothing of the text is lost.
-/
namespace AblResolve.Source

/-- A text divided after each character at which `ends` holds of the character and the text
after it. -/
def divide (ends : Char → List Char → Bool) : List Char → List (List Char)
  | [] => []
  | c :: rest =>
    if ends c rest then [c] :: divide ends rest
    else
      match divide ends rest with
      | [] => [[c]]
      | line :: lines => (c :: line) :: lines

theorem flatten_divide (ends : Char → List Char → Bool) (text : List Char) :
    (divide ends text).flatten = text := by
  induction text with
  | nil => rfl
  | cons c rest ih =>
    rw [divide]
    split
    · simp [ih]
    · split <;> rename_i h <;> rw [h] at ih <;> simp [← ih]

/-- The lines by which tokens are placed, each with its newline; a last line may have none. -/
def splitLines : List Char → List (List Char) := divide fun c _ => c == '\n'

end AblResolve.Source
