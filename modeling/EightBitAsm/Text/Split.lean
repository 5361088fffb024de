/-!
Ways to cut a text: at the first occurrence of a character, into the maximal runs between
separators, and into lines.
-/

namespace EightBitAsm.Text

def cut? (c : Char) : List Char → Option (List Char × List Char)
  | [] => none
  | x :: xs => if x = c then some ([], xs) else (cut? c xs).map fun p => (x :: p.1, p.2)

def upTo (c : Char) (cs : List Char) : List Char :=
  cs.takeWhile (· ≠ c)

/-- The parts between separators, empty ones included. -/
def pieces (sep : Char → Bool) : List Char → List (List Char)
  | [] => [[]]
  | c :: cs =>
    if sep c then [] :: pieces sep cs
    else match pieces sep cs with
      | [] => [[c]]
      | w :: ws => (c :: w) :: ws

def words (sep : Char → Bool) (cs : List Char) : List (List Char) :=
  (pieces sep cs).filter fun w => !w.isEmpty

/-- The lines of a text without their terminators. A line ends at a line feed, and one carriage
return right before the line feed belongs to the terminator. What follows the last line feed is a
line of its own unless it is empty. -/
def lines : List Char → List (List Char)
  | [] => []
  | '\n' :: cs => [] :: lines cs
  | '\r' :: '\n' :: cs => [] :: lines cs
  | c :: cs => match lines cs with
    | [] => [[c]]
    | l :: ls => (c :: l) :: ls

def joinWith (sep : String) : List String → String
  | [] => ""
  | [w] => w
  | w :: ws => w ++ sep ++ joinWith sep ws

end EightBitAsm.Text
