/-!
Lines of a text or of a byte string. A line ends at a line feed, and one carriage return right
before the line feed belongs to the line end; a lone carriage return is an ordinary character.
What follows the last line feed is a line of its own unless it is empty. Bytes are split before
they are decoded, so a reader can tell which lines are valid UTF-8.
-/

namespace ClauseLearning.Text

/-- The line without one carriage return at its end. -/
def dropReturn [BEq α] (carriageReturn : α) (line : List α) : List α :=
  if line.getLast? == some carriageReturn then line.dropLast else line

/-- The lines of a sequence of symbols, given its line feed and its carriage return. -/
def splitLines [BEq α] (lineFeed carriageReturn : α) (text : List α) : List (List α) :=
  let parts := text.splitOn lineFeed
  let ended := parts.dropLast.map (dropReturn carriageReturn)
  match parts.getLast? with
  | some (c :: rest) => ended ++ [c :: rest]
  | _ => ended

/-- The lines of a text. -/
def lines (text : String) : List String :=
  (splitLines '\n' '\r' text.toList).map String.ofList

/-- The lines of a byte string, each decoded from UTF-8; none if one of them is not valid. -/
def decodedLines? (bytes : List UInt8) : Option (List String) :=
  (splitLines 0x0A 0x0D bytes).mapM fun line => String.fromUTF8? ⟨line.toArray⟩

end ClauseLearning.Text
