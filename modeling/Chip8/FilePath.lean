namespace Chip8.FilePath

def isSlash (c : Char) : Bool := c == '/'

def stripEnd (cs : List Char) : List Char := (cs.reverse.dropWhile isSlash).reverse

def base (path : String) : String :=
  String.ofList ((stripEnd path.toList).reverse.takeWhile (!isSlash ·)).reverse

/-- What stands before the last part and the slash in front of that: `.` if there is no slash, and
`/` if there is only the one at the beginning. Two slashes at the beginning are kept both. -/
def directory (path : String) : String :=
  let cs := path.toList
  match (stripEnd cs).reverse.dropWhile (!isSlash ·) with
  | [] => if cs.head? == some '/' then "/" else "."
  | [_] => "/"
  | [_, '/'] => "//"
  | _ :: parent => String.ofList parent.reverse

def withoutExtension (name : String) : String :=
  if name.toList.contains '.' then
    String.ofList ((name.toList.reverse.dropWhile (· != '.')).tail.reverse)
  else name

end Chip8.FilePath
