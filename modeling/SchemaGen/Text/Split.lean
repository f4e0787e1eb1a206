namespace SchemaGen.Text

/-- The pieces between separators; there is always one. -/
def splitOn (separator : Char) : List Char → List (List Char)
  | [] => [[]]
  | c :: rest =>
    if c = separator then [] :: splitOn separator rest
    else match splitOn separator rest with
      | [] => [[c]]
      | piece :: pieces => (c :: piece) :: pieces

/-- The pieces of a text, as texts. -/
def piecesOf (separator : Char) (text : String) : List String :=
  (splitOn separator text.toList).map String.ofList

/-- What follows a given beginning. -/
def afterFront? {α : Type} [BEq α] : List α → List α → Option (List α)
  | [], rest => some rest
  | a :: front, b :: rest => if a == b then afterFront? front rest else none
  | _ :: _, [] => none

/-- Rests of one text without repetitions. Their lengths tell them apart. -/
def distinctRests {α : Type} (rests : List (List α)) : List (List α) :=
  rests.eraseDupsBy fun a b => a.length == b.length

/-- Strings one after another with a separator between them. -/
def joinWith (separator : String) : List String → String
  | [] => ""
  | [s] => s
  | s :: t :: rest => s ++ separator ++ joinWith separator (t :: rest)

end SchemaGen.Text
