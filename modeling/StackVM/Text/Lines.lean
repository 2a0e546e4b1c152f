/-! # Lines of a text

A line ends at a line feed, and one carriage return right before it belongs to the ending. What
follows the last line feed is a line only if it is not empty, and keeps its carriage returns.
-/
namespace StackVM.Text

def closeLine : List Char → List Char
  | '\r' :: rev => rev.reverse
  | rev => rev.reverse

/-- The lines of `cs`, after the lines in `done` (newest first) and the open line `rev`. -/
def linesFrom (done : List (List Char)) (rev : List Char) : List Char → List (List Char)
  | [] => (if rev.isEmpty then done else rev.reverse :: done).reverse
  | c :: cs =>
    if c = '\n' then linesFrom (closeLine rev :: done) [] cs
    else linesFrom done (c :: rev) cs

def lines (text : String) : List (List Char) := linesFrom [] [] text.toList

end StackVM.Text
