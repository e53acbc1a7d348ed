import Keyspace.Text.Blank

/-!
# Words

A text is cut into words at its blanks.  Names of commands and options are
words whose ASCII letters count in either case.
-/

namespace Keyspace.Text

/-- Cuts characters into words at the blanks.  `word` holds the word being read,
last character first. -/
def cut (word : List Char) : List Char → List (List Char)
  | [] => if word.isEmpty then [] else [word.reverse]
  | c :: rest =>
    if isBlank c then
      if word.isEmpty then cut [] rest else word.reverse :: cut [] rest
    else cut (c :: word) rest

/-- The words of a text. -/
def words (text : String) : List String :=
  (cut [] text.toList).map String.ofList

/-- A text with its ASCII letters in lower case. -/
def lower (text : String) : String :=
  .ofList (text.toList.map Char.toLower)

/-- Whether a text is a given lower-case word in either case. -/
def isWord (word text : String) : Bool :=
  text.toList.map Char.toLower == word.toList

end Keyspace.Text
