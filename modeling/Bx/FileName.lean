namespace Bx.FileName

inductive Fault
  | absent
  | directory
  | notDirectory
  | zero
  | tooLong

def Fault.message : Fault → String
  | .zero => "embedded null byte"
  | _ => ""

def Fault.report (name : String) : Fault → String
  | .absent => "[Errno 2] No such file or directory: " ++ name
  | .directory => "[Errno 21] Is a directory: " ++ name
  | .notDirectory => "[Errno 20] Not a directory: " ++ name
  | .tooLong => "[Errno 36] File name too long: " ++ name
  | .zero => "embedded null byte"

def isIdle (part : String) : Bool := part.isEmpty || part == "."

def join (parts : List String) : String := "/".intercalate parts

def parts (name : String) : List String :=
  let ps := (name.splitOn "/").filter fun p => !isIdle p
  if name.startsWith "/" then "" :: ps else ps

def normal (name : String) : String := join (parts name)

def maxPart : Nat := 255
def maxName : Nat := 4096

def walk (files : List String) (writing : Bool) : List String → List String → Except Fault String
  | _, [] => .error .directory
  | dir, x :: rest =>
    if isIdle x then walk files writing dir rest else
    let here := join (dir ++ [x])
    let isDirectory := files.any fun f => f.startsWith (here ++ "/")
    if maxPart < x.utf8ByteSize then .error .tooLong
    else if isDirectory then walk files writing (dir ++ [x]) rest
    else if rest.isEmpty then if writing || files.contains here then .ok here else .error .absent
    else if writing && rest.all String.isEmpty then .error .directory
    else .error (if files.contains here then .notDirectory else .absent)

def resolve (files : List String) (writing : Bool) (name : String) : Except Fault String :=
  if name.toList.contains '\x00' then .error .zero
  else if name.isEmpty then .error .absent
  else if maxName ≤ name.utf8ByteSize then .error .tooLong
  else walk files writing (if name.startsWith "/" then [""] else []) (name.splitOn "/")

end Bx.FileName
